import IW4x.Gdk.AsyncSteps

/-!
# Hold accounting

The memory is sound with respect to the holds and disposals that the threads' activations stand
for: the word of each slot counts the hold of the block, the holds of the queued tasks and the
holds of the activations, and each slot is in exactly one of four places: on the free list, never
handed out, being disposed of by one activation, or live. The count lives in 16 bits and carries
into the token, so the bound on the count is a parameter.
-/

namespace IW4x.Gdk

variable {Op : Type}

/-- The queued task's hold on slot `i`. -/
def Task.holds (i : SlotId) (t : Task) : ℕ := if t.slot = some i then 1 else 0

/-- The activation's hold on slot `i`. -/
def Frame.holds (i : SlotId) (f : Frame) : ℕ := if f.slot = some i then 1 else 0

/-- The activation is disposing of slot `i`. -/
def Frame.disposes (i : SlotId) (f : Frame) : ℕ := if f.disposing = some i then 1 else 0

@[simp] theorem Task.holds_held (i r : SlotId) (f : Work) :
    (Task.held r f).holds i = if r = i then 1 else 0 := by
  simp [holds, slot]

@[simp] theorem Task.holds_callback (i : SlotId) (x : ℕ) : (Task.callback x).holds i = 0 := rfl

theorem Frame.holds_of_slot {f : Frame} {r : SlotId} (h : f.slot = some r) (i : SlotId) :
    f.holds i = if r = i then 1 else 0 := by
  simp [holds, h]

theorem Frame.disposes_of_slot {f : Frame} {r : SlotId} (h : f.slot = some r) (i : SlotId) :
    f.disposes i = 0 := by
  simp [disposes, Frame.disposing_of_slot h]

theorem weight_holds_light {fs : List Frame} (h : ∀ f ∈ fs, f.light) (i : SlotId) :
    Stacks.weight (Frame.holds i) fs = 0 := by
  rw [Stacks.weight_eq_zero_iff]
  intro f hf
  simp [Frame.holds, (h f hf).1]

theorem weight_disposes_light {fs : List Frame} (h : ∀ f ∈ fs, f.light) (i : SlotId) :
    Stacks.weight (Frame.disposes i) fs = 0 := by
  rw [Stacks.weight_eq_zero_iff]
  intro f hf
  simp [Frame.disposes, (h f hf).2]

theorem weight_holds_frames (t : Task) (canceled : Bool) (i : SlotId) :
    Stacks.weight (Frame.holds i) (t.frames canceled) = t.holds i := by
  cases t <;> simp [Task.frames, Frame.holds, Frame.slot]

theorem weight_disposes_frames (t : Task) (canceled : Bool) (i : SlotId) :
    Stacks.weight (Frame.disposes i) (t.frames canceled) = 0 := by
  cases t <;> simp [Task.frames, Frame.disposes, Frame.disposing]

/-- The part of the word that the token makes up. -/
def AsyncState.base (s : AsyncState Op) : ℕ := s.token % 2 ^ 48 * 2 ^ 16

theorem addHold_word (t n : ℕ) :
    addHold ((t * 2 ^ 16 + n) % 2 ^ 64) = (t * 2 ^ 16 + (n + 1)) % 2 ^ 64 := by
  unfold addHold
  omega

theorem subHold_word (t n : ℕ) :
    subHold ((t * 2 ^ 16 + (n + 1)) % 2 ^ 64) = (t * 2 ^ 16 + n) % 2 ^ 64 := by
  unfold subHold
  omega

theorem holdsOf_word (t n : ℕ) : holdsOf ((t * 2 ^ 16 + n) % 2 ^ 64) = n % 2 ^ 16 := by
  unfold holdsOf holdBits
  omega

theorem tokenOf_overrun (t : ℕ) : tokenOf ((t % 2 ^ 48 * 2 ^ 16 + 2 ^ 16) % 2 ^ 64) ≠ t := by
  unfold tokenOf holdBits
  omega

/-- What hold accounting sees of a slot. -/
def AsyncState.core (s : AsyncState Op) : ℕ × ℕ × Bool × Option BlockId :=
  (s.state, s.token, s.retired, s.block)

/-- What the library wrote into a block. -/
def AsyncBlock.link (b : AsyncBlock) : Bool × Option SlotId × ℕ := (b.signed, b.slot, b.token)

namespace Memory

/-- The holds on slot `i` that do not belong to an activation: that of the block, and those of the
queued tasks. -/
def kept (m : Memory Op) (i : SlotId) : ℕ :=
  (if (m.slots i).block.isSome then 1 else 0) + m.queues.weigh (Task.holds i)

end Memory

/-- The memory accounts for `h` holds and `d` disposals that the activations stand for. -/
structure Sound (limit : ℕ) (m : Memory Op) (h d : SlotId → ℕ) : Prop where
  word : ∀ i, (m.slots i).state =
    ((m.slots i).token % 2 ^ 48 * 2 ^ 16 + (m.kept i + h i)) % 2 ^ 64
  bound : ∀ i, m.kept i + h i ≤ limit
  owned : ∀ i, m.free.count i + (if (i : ℕ) < m.used then 0 else 1) + d i +
    (if m.kept i + h i = 0 then 0 else 1) = 1
  retired : ∀ i : SlotId, (i : ℕ) < m.used →
    ((m.slots i).retired = false ↔ (m.slots i).block.isSome = true)
  idle : ∀ i, m.kept i + h i = 0 → d i = 0 → (m.slots i).token = 0
  linked : ∀ b r, (m.blocks b).signed = true → (m.blocks b).slot = some r →
    (m.slots r).block = some b ∧ (m.slots r).token = (m.blocks b).token

namespace Sound

variable {limit : ℕ} {m n : Memory Op} {h h' d d' : SlotId → ℕ}

/-- A change that hold accounting does not see, but for holds that change hands. -/
theorem transfer (hs : Sound limit m h d) (core : ∀ i, (n.slots i).core = (m.slots i).core)
    (link : ∀ b, (n.blocks b).link = (m.blocks b).link) (free : n.free = m.free)
    (used : n.used = m.used)
    (holds : ∀ i, n.queues.weigh (Task.holds i) + h' i = m.queues.weigh (Task.holds i) + h i)
    (disposals : ∀ i, d' i = d i) : Sound limit n h' d' := by
  have hcore : ∀ i, (n.slots i).state = (m.slots i).state ∧
      (n.slots i).token = (m.slots i).token ∧ (n.slots i).retired = (m.slots i).retired ∧
      (n.slots i).block = (m.slots i).block := by
    intro i
    simpa [AsyncState.core] using core i
  have hlink : ∀ b, (n.blocks b).signed = (m.blocks b).signed ∧
      (n.blocks b).slot = (m.blocks b).slot ∧ (n.blocks b).token = (m.blocks b).token := by
    intro b
    simpa [AsyncBlock.link] using link b
  have hsum : ∀ i, n.kept i + h' i = m.kept i + h i := by
    intro i
    have hi := holds i
    simp only [Memory.kept, (hcore i).2.2.2]
    omega
  constructor
  · intro i
    rw [hsum, (hcore i).1, (hcore i).2.1]
    exact hs.word i
  · intro i
    rw [hsum]
    exact hs.bound i
  · intro i
    rw [hsum, disposals, free, used]
    exact hs.owned i
  · intro i hi
    rw [(hcore i).2.2.1, (hcore i).2.2.2]
    exact hs.retired i (used ▸ hi)
  · intro i hi hd
    rw [(hcore i).2.1]
    exact hs.idle i (hsum i ▸ hi) (disposals i ▸ hd)
  · intro b r hsigned hslot
    rw [(hcore r).2.2.2, (hcore r).2.1, (hlink b).2.2]
    exact hs.linked b r ((hlink b).1 ▸ hsigned) ((hlink b).2.1 ▸ hslot)

theorem holdsOf_state (hs : Sound limit m h d) (i : SlotId) :
    holdsOf (m.slots i).state = (m.kept i + h i) % 2 ^ 16 := by
  rw [hs.word i, holdsOf_word]

/-- A change that concerns slot `r` alone. -/
theorem at_slot (hs : Sound limit m h d) (r : SlotId)
    (core : ∀ i, i ≠ r → (n.slots i).core = (m.slots i).core)
    (sums : ∀ i, i ≠ r → n.kept i + h' i = m.kept i + h i)
    (disposals : ∀ i, i ≠ r → d' i = d i)
    (free : ∀ i, i ≠ r → n.free.count i = m.free.count i)
    (used : ∀ i, i ≠ r → ((i : ℕ) < n.used ↔ (i : ℕ) < m.used))
    (word : (n.slots r).state = ((n.slots r).token % 2 ^ 48 * 2 ^ 16 + (n.kept r + h' r)) % 2 ^ 64)
    (bound : n.kept r + h' r ≤ limit)
    (owned : n.free.count r + (if (r : ℕ) < n.used then 0 else 1) + d' r +
      (if n.kept r + h' r = 0 then 0 else 1) = 1)
    (retired : (r : ℕ) < n.used →
      ((n.slots r).retired = false ↔ (n.slots r).block.isSome = true))
    (idle : n.kept r + h' r = 0 → d' r = 0 → (n.slots r).token = 0)
    (linked : ∀ b s, (n.blocks b).signed = true → (n.blocks b).slot = some s →
      (n.slots s).block = some b ∧ (n.slots s).token = (n.blocks b).token) :
    Sound limit n h' d' := by
  have hcore : ∀ i, i ≠ r → (n.slots i).state = (m.slots i).state ∧
      (n.slots i).token = (m.slots i).token ∧ (n.slots i).retired = (m.slots i).retired ∧
      (n.slots i).block = (m.slots i).block := by
    intro i hi
    simpa [AsyncState.core] using core i hi
  constructor
  · intro i
    by_cases hi : i = r
    · exact hi ▸ word
    · rw [sums i hi, (hcore i hi).1, (hcore i hi).2.1]
      exact hs.word i
  · intro i
    by_cases hi : i = r
    · exact hi ▸ bound
    · rw [sums i hi]
      exact hs.bound i
  · intro i
    by_cases hi : i = r
    · exact hi ▸ owned
    · simp only [sums i hi, disposals i hi, free i hi, used i hi]
      exact hs.owned i
  · intro i hlt
    by_cases hi : i = r
    · exact hi ▸ retired (hi ▸ hlt)
    · rw [(hcore i hi).2.2.1, (hcore i hi).2.2.2]
      exact hs.retired i ((used i hi).mp hlt)
  · intro i hzero hd
    by_cases hi : i = r
    · exact hi ▸ idle (hi ▸ hzero) (hi ▸ hd)
    · rw [(hcore i hi).2.1]
      exact hs.idle i (sums i hi ▸ hzero) (disposals i hi ▸ hd)
  · exact linked

theorem kept_setSlot {r : SlotId} {s : AsyncState Op} (block : s.block = (m.slots r).block)
    (i : SlotId) : (m.setSlot r s).kept i = m.kept i := by
  by_cases hi : i = r
  · subst hi; simp [Memory.kept, block]
  · simp [Memory.kept, hi]

theorem linked_setSlot (hs : Sound limit m h d) {r : SlotId} {s : AsyncState Op}
    (block : s.block = (m.slots r).block) (token : s.token = (m.slots r).token) (b : BlockId)
    (x : SlotId) (signed : ((m.setSlot r s).blocks b).signed = true)
    (slot : ((m.setSlot r s).blocks b).slot = some x) :
    ((m.setSlot r s).slots x).block = some b ∧
      ((m.setSlot r s).slots x).token = ((m.setSlot r s).blocks b).token := by
  have hlink := hs.linked b x signed slot
  by_cases hx : x = r
  · subst hx
    simpa [block, token] using hlink
  · simpa [hx] using hlink

/-- One more hold on a live slot. -/
theorem hold (hs : Sound limit m h d) {r : SlotId} (live : 0 < m.kept r + h r)
    (room : m.kept r + h r < limit) (holds : ∀ i, h' i = h i + if r = i then 1 else 0) :
    Sound limit (m.hold r) h' d := by
  have hself : h' r = h r + 1 := by simp [holds]
  have hkept : ∀ i, (m.hold r).kept i = m.kept i := kept_setSlot rfl
  have howned := hs.owned r
  rw [if_neg (show ¬ m.kept r + h r = 0 by omega)] at howned
  refine hs.at_slot r ?_ ?_ (fun _ _ => rfl) (fun _ _ => rfl) (fun _ _ => .rfl) ?_ ?_ ?_ ?_ ?_ ?_
  · intro i hi
    simp [Memory.hold, hi]
  · intro i hi
    simp [hkept, holds, Ne.symm hi]
  · rw [hkept, hself, ← Nat.add_assoc (m.kept r)]
    simp only [Memory.hold, Memory.setSlot_slots, Function.update_self]
    rw [hs.word r, addHold_word]
  · rw [hkept, hself]
    omega
  · rw [hkept, hself, if_neg (show ¬ m.kept r + (h r + 1) = 0 by omega)]
    exact howned
  · intro hlt
    simpa [Memory.hold] using hs.retired r hlt
  · intro hzero
    rw [hkept, hself] at hzero
    omega
  · exact hs.linked_setSlot rfl rfl

/-- A hold less. The activation that drops the last one disposes of the slot. -/
theorem drop (hs : Sound limit m h d) (small : limit ≤ 2 ^ 16) {r : SlotId}
    (holds : ∀ i, h i = h' i + if r = i then 1 else 0)
    (disposals : ∀ i, d' i = d i + if r = i ∧ holdsOf (m.slots r).state = 1 then 1 else 0) :
    Sound limit (m.drop r) h' d' := by
  have hself : h r = h' r + 1 := by simp [holds]
  have hkept : ∀ i, (m.drop r).kept i = m.kept i := kept_setSlot rfl
  have howned := hs.owned r
  have hbound := hs.bound r
  have hcount := hs.holdsOf_state r
  have hdself : d' r = d r + if holdsOf (m.slots r).state = 1 then 1 else 0 := by
    simp [disposals]
  rw [if_neg (show ¬ m.kept r + h r = 0 by omega)] at howned
  -- the count has not run over, so the last hold is told from all others
  have hlast : holdsOf (m.slots r).state = 1 ↔ m.kept r + h' r = 0 := by
    rw [hcount]
    omega
  refine hs.at_slot r ?_ ?_ ?_ (fun _ _ => rfl) (fun _ _ => .rfl) ?_ ?_ ?_ ?_ ?_ ?_
  · intro i hi
    simp [Memory.drop, hi]
  · intro i hi
    simp [hkept, holds i, Ne.symm hi]
  · intro i hi
    simp [disposals, Ne.symm hi]
  · rw [hkept]
    simp only [Memory.drop, Memory.setSlot_slots, Function.update_self]
    rw [hs.word r, hself, ← Nat.add_assoc (m.kept r), subHold_word]
  · rw [hkept]
    omega
  · rw [hkept, hdself]
    by_cases hz : m.kept r + h' r = 0
    · rw [if_pos (hlast.mpr hz), if_pos hz]
      change m.free.count r + (if (r : ℕ) < m.used then 0 else 1) + (d r + 1) + 0 = 1
      omega
    · rw [if_neg (fun hl => hz (hlast.mp hl)), if_neg hz]
      exact howned
  · intro hlt
    simpa [Memory.drop] using hs.retired r hlt
  · intro hzero hd
    rw [hkept] at hzero
    rw [hdself, if_pos (hlast.mpr hzero)] at hd
    omega
  · exact hs.linked_setSlot rfl rfl

/-- The block lets go of the slot, and its hold goes to the activation. -/
theorem retireSlot (hs : Sound limit m h d) {r : SlotId} (first : (m.slots r).retired = false)
    (used : (r : ℕ) < m.used) (holds : ∀ i, h' i = h i + if r = i then 1 else 0) :
    Sound limit (m.retireSlot r) h' d := by
  obtain ⟨a, ha⟩ := Option.isSome_iff_exists.mp ((hs.retired r used).mp first)
  have hslots : (m.retireSlot r).slots =
      Function.update m.slots r { m.slots r with retired := true, block := none } := by
    simp [Memory.retireSlot, ha, Memory.setBlock]
  have hblocks : (m.retireSlot r).blocks = Function.update m.blocks a
      { m.blocks a with signed := false, slot := none, token := 0 } := by
    simp [Memory.retireSlot, ha, Memory.setBlock]
  have hqueues : (m.retireSlot r).queues = m.queues := by
    simp [Memory.retireSlot, ha, Memory.setBlock]
  have hfree : (m.retireSlot r).free = m.free := by
    simp [Memory.retireSlot, ha, Memory.setBlock]
  have hused : (m.retireSlot r).used = m.used := by
    simp [Memory.retireSlot, ha, Memory.setBlock]
  have hsum : ∀ i, (m.retireSlot r).kept i + h' i = m.kept i + h i := by
    intro i
    by_cases hi : i = r
    · subst hi
      simp [Memory.kept, hslots, hqueues, holds, ha]
      omega
    · simp [Memory.kept, hslots, hqueues, holds, hi, Ne.symm hi]
  refine hs.at_slot r ?_ (fun i _ => hsum i) (fun _ _ => rfl) ?_ ?_ ?_ ?_ ?_ ?_ ?_ ?_
  · intro i hi
    simp [hslots, hi]
  · intro i _
    rw [hfree]
  · intro i _
    rw [hused]
  · rw [hsum]
    simpa [hslots] using hs.word r
  · rw [hsum]
    exact hs.bound r
  · rw [hsum, hfree, hused]
    exact hs.owned r
  · intro _
    simp [hslots]
  · intro hzero hd
    rw [hsum] at hzero
    simpa [hslots] using hs.idle r hzero hd
  · intro b x hsigned hslot
    have hb : b ≠ a := by
      rintro rfl
      simp [hblocks] at hsigned
    rw [hblocks, Function.update_of_ne hb] at hsigned hslot
    have hlink := hs.linked b x hsigned hslot
    have hx : x ≠ r := by
      rintro rfl
      rw [ha, Option.some.injEq] at hlink
      exact hb hlink.1.symm
    simpa [hslots, hblocks, hb, hx] using hlink

/-- The end of a disposal puts the slot on the free list. -/
theorem recycle (hs : Sound limit m h d) {r : SlotId}
    (disposals : ∀ i, d i = d' i + if r = i then 1 else 0) : Sound limit (m.recycle r) h d' := by
  have hself : d r = d' r + 1 := by simp [disposals]
  have howned := hs.owned r
  have hzero : m.kept r + h r = 0 := by
    by_contra hpos
    rw [if_neg hpos] at howned
    omega
  rw [if_pos hzero] at howned
  have hblock : (m.slots r).block = none := by
    simp only [Memory.kept] at hzero
    cases hb : (m.slots r).block with
    | none => rfl
    | some a => simp [hb] at hzero
  have hkept : ∀ i, (m.recycle r).kept i = m.kept i := by
    intro i
    by_cases hi : i = r
    · subst hi; simp [Memory.kept, Memory.recycle]
    · simp [Memory.kept, Memory.recycle, hi]
  refine hs.at_slot r ?_ ?_ ?_ ?_ (fun _ _ => .rfl) ?_ ?_ ?_ ?_ ?_ ?_
  · intro i hi
    simp [Memory.recycle, hi]
  · intro i _
    rw [hkept]
  · intro i hi
    simp [disposals i, Ne.symm hi]
  · intro i hi
    simp [Memory.recycle, Ne.symm hi]
  · rw [hkept, hzero]
    simp [Memory.recycle]
  · rw [hkept]
    exact hs.bound r
  · rw [hkept, if_pos hzero]
    change (r :: m.free).count r + (if (r : ℕ) < m.used then 0 else 1) + d' r + 0 = 1
    rw [List.count_cons_self]
    omega
  · intro hlt
    simpa [Memory.recycle] using hs.retired r hlt
  · intro _ _
    simp [Memory.recycle]
  · intro b x hsigned hslot
    have hlink := hs.linked b x hsigned hslot
    have hx : x ≠ r := by
      rintro rfl
      rw [hblock] at hlink
      cases hlink.1
    simpa [Memory.recycle, hx] using hlink

theorem used (hs : Sound limit m h d) {r : SlotId} (busy : 0 < m.kept r + h r ∨ 0 < d r) :
    (r : ℕ) < m.used := by
  have howned := hs.owned r
  by_contra hnot
  rw [if_neg hnot] at howned
  split_ifs at howned <;> omega

theorem picked_idle (hs : Sound limit m h d) {a : BlockId} {r : SlotId}
    (acquired : Memory.Acquired m a r n) : m.kept r + h r = 0 ∧ d r = 0 := by
  have howned := hs.owned r
  rcases acquired.picked with ⟨hfree, -⟩ | ⟨-, -, hr, -⟩
  · rw [hfree, List.count_cons_self] at howned
    split_ifs at howned <;> omega
  · rw [hr, if_neg (lt_irrefl _)] at howned
    split_ifs at howned <;> omega

/-- A slot that is handed out has one hold, that of the block. -/
theorem acquire (hs : Sound limit m h d) {a : BlockId} {r : SlotId}
    (acquired : Memory.Acquired m a r n) (room : 0 < limit) : Sound limit n h d := by
  obtain ⟨hzero, hd⟩ := hs.picked_idle acquired
  have hkeptr : n.kept r = m.kept r + 1 := by
    have hnone : (m.slots r).block = none := by
      simp only [Memory.kept] at hzero
      cases hb : (m.slots r).block with
      | none => rfl
      | some a => simp [hb] at hzero
    simp [Memory.kept, acquired.slots, acquired.queues, hnone]
    omega
  have hkept : ∀ i, i ≠ r → n.kept i = m.kept i := by
    intro i hi
    simp [Memory.kept, acquired.slots, acquired.queues, hi]
  have hone : n.kept r + h r = 1 := by omega
  refine hs.at_slot r ?_ ?_ (fun _ _ => rfl) ?_ ?_ ?_ ?_ ?_ ?_ ?_ ?_
  · intro i hi
    simp [acquired.slots, hi]
  · intro i hi
    rw [hkept i hi]
  · intro i hi
    rcases acquired.picked with ⟨hfree, -⟩ | ⟨hfree, hfree', -⟩
    · simp [hfree, Ne.symm hi]
    · rw [hfree, hfree']
  · intro i hi
    rcases acquired.picked with ⟨-, hused⟩ | ⟨-, -, hr, hused⟩
    · rw [hused]
    · have hne : (i : ℕ) ≠ (r : ℕ) := fun heq => hi (Fin.ext heq)
      omega
  · rw [hone, acquired.slots, Function.update_self]
    simp only [slotState, holdBits]
    omega
  · omega
  · rw [hone, hd, if_neg one_ne_zero]
    have howned := hs.owned r
    rw [if_pos hzero, hd] at howned
    rcases acquired.picked with ⟨hfree, hused⟩ | ⟨hfree, hfree', hr, hused⟩
    · rw [hfree, List.count_cons_self] at howned
      rw [hused]
      omega
    · rw [hfree', hused, hr, if_pos (by omega)]
      simp
  · intro _
    simp [acquired.slots]
  · intro hz
    omega
  · intro b x hsigned hslot
    by_cases hb : b = a
    · subst hb
      simp only [acquired.blocks, Function.update_self, Option.some.injEq] at hslot
      subst hslot
      simp [acquired.slots, acquired.blocks]
    · rw [acquired.blocks, Function.update_of_ne hb] at hsigned hslot
      have hlink := hs.linked b x hsigned hslot
      have hx : x ≠ r := by
        rintro rfl
        simp only [Memory.kept, hlink.1, Option.isSome_some, if_true] at hzero
        omega
      simpa [acquired.slots, acquired.blocks, hb, hx] using hlink

theorem submits (hs : Sound limit m h d) (large : 2 ^ 16 - 1 ≤ limit) (small : limit ≤ 2 ^ 16)
    {r : SlotId} (some : holdsOf (m.slots r).state ≠ 0)
    (room : holdsOf (m.slots r).state ≠ holdMask) :
    0 < m.kept r + h r ∧ m.kept r + h r < limit := by
  have hbound := hs.bound r
  rw [hs.holdsOf_state] at some room
  simp only [holdMask, holdBits] at room
  omega

theorem immediate (hs : Sound limit m h d) (large : 2 ^ 16 - 1 ≤ limit) (small : limit ≤ 2 ^ 16)
    {alloc : Bool} {now delay : ℕ} {r : SlotId} {p : PortId} {f : Work}
    (sent : m.submit alloc now r p delay f = .immediate n)
    (holds : ∀ i, h' i = h i + if r = i then 1 else 0) : Sound limit n h' d := by
  obtain ⟨rfl, hsome, hroom⟩ := Memory.submit_immediate sent
  obtain ⟨hlive, hlt⟩ := hs.submits large small hsome hroom
  exact hs.hold hlive hlt holds

theorem enqueue (hs : Sound limit m h d) (large : 2 ^ 16 - 1 ≤ limit) (small : limit ≤ 2 ^ 16)
    {alloc : Bool} {now delay : ℕ} {r : SlotId} {p : PortId} {f : Work}
    (sent : m.submit alloc now r p delay f = .accepted n) : Sound limit n h d := by
  obtain ⟨t, hport, rfl, hsome, hroom⟩ := Memory.submit_accepted sent
  obtain ⟨hlive, hlt⟩ := hs.submits large small hsome hroom
  have hheld : Sound limit (m.hold r) (fun i => h i + if r = i then 1 else 0) d :=
    hs.hold hlive hlt fun _ => rfl
  refine hheld.transfer (fun _ => rfl) (fun _ => rfl) rfl rfl ?_ fun _ => rfl
  intro i
  have hset := QueuePool.weigh_accepted (Task.holds i) hport
  rw [Task.holds_held] at hset
  change (m.queues.setPort p t).weigh (Task.holds i) + h i =
    m.queues.weigh (Task.holds i) + (h i + if r = i then 1 else 0)
  omega

theorem dequeue (hs : Sound limit m h d) {p : PortId} {now : ℕ} {t : TaskPort.Taken Task}
    (taken : (m.queues.owned p).take now = some t)
    (holds : ∀ i, h' i = h i + t.item.callback.holds i) :
    Sound limit (m.withQueues (m.queues.setPort p t.port)) h' d := by
  refine hs.transfer (fun _ => rfl) (fun _ => rfl) rfl rfl ?_ fun _ => rfl
  intro i
  have hset := QueuePool.weigh_taken (Task.holds i) taken
  have hi := holds i
  change (m.queues.setPort p t.port).weigh (Task.holds i) + h' i =
    m.queues.weigh (Task.holds i) + h i
  omega

theorem managed (hs : Sound limit m h d) {qs : QueuePool Task} (kept : Managed m.queues qs)
    (holds : ∀ i, h' i = h i) (disposals : ∀ i, d' i = d i) :
    Sound limit (m.withQueues qs) h' d' := by
  refine hs.transfer (fun _ => rfl) (fun _ => rfl) rfl rfl ?_ disposals
  intro i
  have hweigh := kept.weigh (Task.holds i) fun x => rfl
  rw [holds, Memory.withQueues_queues, hweigh]

theorem core_setSlot {r : SlotId} {s : AsyncState Op} (core : s.core = (m.slots r).core)
    (i : SlotId) : ((m.setSlot r s).slots i).core = (m.slots i).core := by
  by_cases hi : i = r
  · subst hi; simp [core]
  · simp [hi]

theorem began (hs : Sound limit m h d) (room : 0 < limit) {a : BlockId} {q : QueueId} {r : SlotId}
    {id : Option ℕ} {o : Option Op} {provider : Option ℕ} {context : ℕ}
    (began : Began m a q r n id o provider context) : Sound limit n h d := by
  obtain ⟨qs, acquired, hresolve, hacquire, rfl⟩ := began
  have hacquired := Memory.acquire_some hacquire
  have hsound := hs.acquire hacquired room
  have hmanaged : Managed acquired.queues qs := by
    rw [hacquired.queues]
    exact (resolve_steady hresolve).toManaged
  exact (hsound.managed hmanaged (fun _ => rfl) fun _ => rfl).transfer (core_setSlot rfl)
    (fun _ => rfl) rfl rfl (fun _ => rfl) fun _ => rfl

/-- What beginning an operation on slot `r` changes. -/
structure Fresh (m : Memory Op) (r : SlotId) (n : Memory Op) : Prop where
  acquired : n.acquired = m.acquired + 1
  serial : n.serial r = m.acquired
  others : ∀ i, i ≠ r → n.slots i = m.slots i
  used : ∀ i : SlotId, (i : ℕ) < n.used ↔ i = r ∨ (i : ℕ) < m.used
  free : ∀ i, i ≠ r → n.free.count i = m.free.count i
  taken : n.free.count r = 0
  idle : (r : ℕ) < m.used → m.free.count r = 1
  retired : (n.slots r).retired = false
  grown : m.used ≤ n.used

theorem began_fresh {a : BlockId} {q : QueueId} {r : SlotId} {id : Option ℕ} {o : Option Op}
    {provider : Option ℕ} {context : ℕ} (hs : Sound limit m h d)
    (began : Began m a q r n id o provider context) : Fresh m r n := by
  obtain ⟨qs, acquired, hresolve, hacquire, rfl⟩ := began
  have hacquired := Memory.acquire_some hacquire
  obtain ⟨hzero, hd⟩ := hs.picked_idle hacquired
  have howned := hs.owned r
  rw [if_pos hzero, hd] at howned
  constructor
  · exact hacquired.acquired
  · simp [Memory.serial, Memory.describe, hacquired.slots]
  · intro i hi
    simp [Memory.describe, hacquired.slots, hi]
  · intro i
    change (i : ℕ) < acquired.used ↔ _
    rcases hacquired.picked with ⟨hfree, hused⟩ | ⟨-, -, hr, hused⟩
    · rw [hfree, List.count_cons_self] at howned
      rw [hused]
      refine ⟨.inr, ?_⟩
      rintro (rfl | hlt)
      · by_contra hnot
        rw [if_neg hnot] at howned
        omega
      · exact hlt
    · rw [hused, Fin.ext_iff]
      omega
  · intro i hi
    change acquired.free.count i = _
    rcases hacquired.picked with ⟨hfree, -⟩ | ⟨hfree, hfree', -⟩
    · simp [hfree, Ne.symm hi]
    · rw [hfree, hfree']
  · change acquired.free.count r = 0
    rcases hacquired.picked with ⟨hfree, -⟩ | ⟨-, hfree', -⟩
    · rw [hfree, List.count_cons_self] at howned
      omega
    · rw [hfree']
      rfl
  · intro hused
    rw [if_pos hused] at howned
    omega
  · simp [Memory.describe, hacquired.slots]
  · change m.used ≤ acquired.used
    rcases hacquired.picked with ⟨-, hused⟩ | ⟨-, -, -, hused⟩ <;> omega

end Sound

section Effects

variable {limit : ℕ} {g : Granularity} {m n : Memory Op} {c : Choice Op} {old new : List Frame}
  {ev : List Event} {h d : SlotId → ℕ}

attribute [local simp] Frame.holds Frame.disposes Frame.slot Frame.disposing Memory.settle

theorem Sound.congr {h' d' : SlotId → ℕ} (hs : Sound limit m h d) (holds : ∀ i, h' i = h i)
    (disposals : ∀ i, d' i = d i) : Sound limit m h' d' := by
  rwa [show h' = h from funext holds, show d' = d from funext disposals]

theorem weight_holds_after (r : SlotId) (next : Next) (i : SlotId) :
    Stacks.weight (Frame.holds i) (m.after r next) = if r = i then 1 else 0 := by
  cases next <;> simp [Memory.after]

theorem weight_disposes_after (r : SlotId) (next : Next) (i : SlotId) :
    Stacks.weight (Frame.disposes i) (m.after r next) = 0 := by
  cases next <;> simp [Memory.after]

theorem Sound.find_linked (hs : Sound limit m h d) {a : BlockId} {r : SlotId}
    (found : m.find (some a) = some r) :
    (m.slots r).block = some a ∧ tokenOf (m.slots r).state = (m.slots r).token := by
  simp only [Memory.find] at found
  split_ifs at found with hsigned
  split at found
  · cases found
  · rename_i x hslot
    split_ifs at found with htoken
    cases found
    obtain ⟨hblock, heq⟩ := hs.linked a r hsigned hslot
    exact ⟨hblock, by rw [htoken.2, heq]⟩

theorem Sound.find_room (hs : Sound (2 ^ 16) m h d) {a : BlockId} {r : SlotId}
    (found : m.find (some a) = some r) : m.kept r + h r < 2 ^ 16 := by
  obtain ⟨-, htoken⟩ := hs.find_linked found
  have hbound := hs.bound r
  by_contra hfull
  have hsum : m.kept r + h r = 2 ^ 16 := by omega
  rw [hs.word r, hsum] at htoken
  exact tokenOf_overrun _ htoken

/-- A step keeps the memory sound: what the old activations held, the new ones account for. -/
theorem Effect.sound (effect : Effect g m c old n new ev) (large : 2 ^ 16 - 1 ≤ limit)
    (small : limit ≤ 2 ^ 16)
    (swap : c.certain → ∀ b q r t, old = [.findSwap b q r t (m.slots r).state] →
      tokenOf (m.slots r).state = t → 0 < m.kept r + h r ∧ m.kept r + h r < limit)
    (find : g = .whole → ∀ a r, m.find (some a) = some r → m.kept r + h r < limit)
    (begins : ∀ f ∈ old, ∀ r, f.begins = some r → (r : ℕ) < m.used)
    (hs : Sound limit m (fun i => h i + Stacks.weight (Frame.holds i) old)
      (fun i => d i + Stacks.weight (Frame.disposes i) old)) :
    Sound limit n (fun i => h i + Stacks.weight (Frame.holds i) new)
      (fun i => d i + Stacks.weight (Frame.disposes i) new) := by
  have hpos : 0 < limit := by omega
  cases effect with
  | manage kept light plain =>
    refine hs.managed kept.toManaged ?_ ?_
    · intro i
      rw [weight_holds_light light, weight_holds_light fun f hf => (plain f hf).1]
    · intro i
      rw [weight_disposes_light light, weight_disposes_light fun f hf => (plain f hf).1]
  | adjusts kept light plain =>
    refine hs.managed kept ?_ ?_
    · intro i
      rw [weight_holds_light light, weight_holds_light fun f hf => (plain f hf).1]
    · intro i
      rw [weight_disposes_light light, weight_disposes_light fun f hf => (plain f hf).1]
  | prepare =>
    refine hs.transfer (fun _ => rfl) ?_ rfl rfl (fun _ => rfl) fun _ => rfl
    intro x
    rename_i b _ _ _ _
    by_cases hx : x = b
    · subst hx; simp [Memory.setBlock, AsyncBlock.link]
    · simp [Memory.setBlock, hx]
  | returns => simpa using hs
  | @took _ ran p now t light plain _ taken =>
    refine (hs.dequeue taken fun _ => rfl).congr ?_ ?_
    · intro i
      rw [Stacks.weight_append, weight_holds_frames, weight_holds_light light,
        weight_holds_light fun f hf => (plain f hf).1]
      rfl
    · intro i
      rw [Stacks.weight_append, weight_disposes_frames, weight_disposes_light light,
        weight_disposes_light fun f hf => (plain f hf).1]
  | beginAccepted began port sent =>
    have hheld := (hs.began hpos began).enqueue large small sent
    simpa using hheld
  | beginImmediate began port sent =>
    refine ((hs.began hpos began).immediate large small sent ?_).congr (fun _ => rfl) ?_
    · simp
    · simp
  | beginRefused began =>
    have hfresh := hs.began_fresh began
    refine ((hs.began hpos began).retireSlot hfresh.retired ((hfresh.used _).mpr (.inl rfl))
      ?_).congr (fun _ => rfl) ?_
    · simp
    · simp
  | providerBegun began => simpa using hs.began hpos began
  | failsBegin => simpa using hs
  | cleanedFailed => simpa using hs
  | drops live =>
    rename_i r b hr
    have hused : (r : ℕ) < m.used := begins _ (List.mem_singleton_self _) r rfl
    refine (hs.retireSlot live hused ?_).congr (fun _ => rfl) ?_
    · simp
    · simp
  | @finds a q r e _ mode whole =>
    obtain ⟨hblock, -⟩ := hs.find_linked whole
    have hlive : 0 < m.kept r + h r := by
      simp only [Memory.kept, hblock, Option.isSome_some, if_true]
      omega
    have hheld : Sound limit (m.hold r) (fun i => h i + if r = i then 1 else 0) d := by
      refine (hs.hold ?_ ?_ fun _ => rfl).congr ?_ ?_
      · simpa using hlive
      · simpa using find mode a r whole
      · simp
      · simp
    exact hheld.congr (by simp) (by simp)
  | @swaps b q r t certain mine =>
    obtain ⟨hlive, hroom⟩ := swap certain b q r t rfl mine
    have hheld : Sound limit (m.hold r) (fun i => h i + if r = i then 1 else 0) d := by
      refine (hs.hold ?_ ?_ fun _ => rfl).congr ?_ ?_
      · simpa using hlive
      · simpa using hroom
      · simp
      · simp
    exact hheld.congr (by simp) (by simp)
  | @settles f b q r reply call early =>
    have hslot : f.slot = some r := by
      rcases call with rfl | ⟨rfl, -⟩ <;> rfl
    refine hs.congr ?_ ?_
    · intro i
      rw [Stacks.weight_cons _ f, Frame.holds_of_slot hslot]
      simp
    · intro i
      rw [Stacks.weight_cons _ f, Frame.disposes_of_slot hslot]
      simp
  | proceeds slot slot' =>
    refine hs.congr ?_ ?_
    · intro i
      simp only [Stacks.weight_cons, Frame.holds_of_slot slot, Frame.holds_of_slot slot']
    · intro i
      simp only [Stacks.weight_cons, Frame.disposes_of_slot slot, Frame.disposes_of_slot slot']
  | provides slot slot' =>
    refine hs.congr ?_ ?_
    · intro i
      simp only [Stacks.weight_cons, Frame.holds_of_slot slot, Frame.holds_of_slot slot']
    · intro i
      simp only [Stacks.weight_cons, Frame.disposes_of_slot slot, Frame.disposes_of_slot slot']
  | works => simpa using hs
  | announces => simpa using hs
  | silent => simpa using hs
  | scheduleAccepted queue port sent =>
    refine (hs.enqueue large small sent).congr ?_ ?_ <;> simp
  | scheduleImmediate queue port sent =>
    refine (hs.immediate large small sent fun _ => rfl).congr ?_ ?_
    · intro i
      simp
      omega
    · simp
  | finishesAgain again =>
    refine hs.congr ?_ ?_
    · intro i
      rw [weight_holds_after]
      simp
    · intro i
      rw [weight_disposes_after]
      simp
  | finishes first gone =>
    refine hs.transfer (Sound.core_setSlot rfl) (fun _ => rfl) rfl rfl ?_ ?_
    · intro i
      rw [weight_holds_after]
      simp [Memory.complete]
    · intro i
      rw [weight_disposes_after]
      simp
  | finishesBlock first block =>
    refine hs.transfer (Sound.core_setSlot rfl) (fun _ => rfl) rfl rfl ?_ ?_
    · intro i
      simp [Memory.complete]
    · intro i
      simp
  | publishesNothing kept =>
    refine hs.managed kept.toManaged ?_ ?_
    · intro i
      rw [weight_holds_after]
      simp
    · intro i
      rw [weight_disposes_after]
      simp
  | publishAccepted _ resolved port sent =>
    have hmanaged := hs.managed (resolve_steady resolved).toManaged (fun _ => rfl) fun _ => rfl
    refine (hmanaged.enqueue large small sent).congr ?_ ?_
    · intro i
      rw [weight_holds_after]
      simp
    · intro i
      rw [weight_disposes_after]
      simp
  | publishImmediate _ resolved port sent =>
    have hmanaged := hs.managed (resolve_steady resolved).toManaged (fun _ => rfl) fun _ => rfl
    refine (hmanaged.immediate large small sent fun _ => rfl).congr ?_ ?_
    · intro i
      rw [Stacks.weight_cons, weight_holds_after]
      simp
      omega
    · intro i
      rw [Stacks.weight_cons, weight_disposes_after]
      simp
  | retiresAgain again => simpa using hs
  | @retires r b q reply live =>
    have hlive : 0 < m.kept r + (h r + 1) := by omega
    have hused : (r : ℕ) < m.used := hs.used (.inl (by simp))
    refine (hs.retireSlot live hused fun _ => rfl).congr ?_ ?_
    · intro i
      simp
      omega
    · simp
  | @releases r owner held more =>
    refine hs.drop small ?_ ?_
    · intro i
      simp
    · intro i
      simp [more]
  | @releasesLast r owner last =>
    refine hs.drop small ?_ ?_
    · intro i
      simp
    · intro i
      simp [last]
  | destroys =>
    refine hs.transfer (Sound.core_setSlot rfl) (fun _ => rfl) rfl rfl ?_ ?_
    · intro i
      simp [Memory.strip]
    · intro i
      simp
  | destroysNothing =>
    refine hs.transfer (Sound.core_setSlot rfl) (fun _ => rfl) rfl rfl ?_ ?_
    · intro i
      simp [Memory.strip]
    · intro i
      simp
  | destroyed => simpa using hs
  | cleansNothing => simpa using hs
  | cleans => simpa using hs
  | cleaned => simpa using hs
  | @recycles r =>
    have hfree : Sound limit (m.recycle r) _ d := hs.recycle (by simp)
    exact hfree.congr (by simp) (by simp)

/-- What a step puts on the stack of `provider_begin` works on a slot in use, and slots in use stay
in use. -/
theorem Effect.begins (effect : Effect g m c old n new ev) (hs : Sound limit m h d)
    (begins : ∀ f ∈ old, ∀ r, f.begins = some r → (r : ℕ) < m.used) :
    m.used ≤ n.used ∧ ∀ f ∈ new, ∀ r, f.begins = some r → (r : ℕ) < n.used := by
  have hafter : ∀ (r : SlotId) (next : Next), ∀ f ∈ m.after r next, f.begins = none := by
    intro r next f hf
    cases next <;> simp [Memory.after] at hf <;> rcases hf with rfl | rfl <;> rfl
  have hframes : ∀ (t : Task) (canceled : Bool), ∀ f ∈ t.frames canceled, f.begins = none := by
    intro t canceled f hf
    cases t <;> simp [Task.frames] at hf <;> subst hf <;> rfl
  have hnone : ∀ fs : List Frame, (∀ f ∈ fs, f.begins = none) →
      ∀ f ∈ fs, ∀ r, f.begins = some r → (r : ℕ) < n.used := by
    intro fs hfs f hf r hr
    rw [hfs f hf] at hr
    cases hr
  cases effect with
  | manage _ _ plain => exact ⟨le_refl _, hnone _ fun f hf => (plain f hf).2.1⟩
  | adjusts _ _ plain => exact ⟨le_refl _, hnone _ fun f hf => (plain f hf).2.1⟩
  | prepare => exact ⟨le_refl _, by simp⟩
  | returns => exact ⟨le_refl _, by simp⟩
  | took _ plain =>
    refine ⟨le_refl _, hnone _ ?_⟩
    intro f hf
    rcases List.mem_append.mp hf with hf | hf
    · exact hframes _ _ f hf
    · exact (plain f hf).2.1
  | beginAccepted began port sent =>
    obtain ⟨t, -, rfl, -⟩ := Memory.submit_accepted sent
    exact ⟨(hs.began_fresh began).grown, by simp [Frame.begins]⟩
  | beginImmediate began port sent =>
    obtain ⟨rfl, -⟩ := Memory.submit_immediate sent
    exact ⟨(hs.began_fresh began).grown, by simp [Frame.begins]⟩
  | beginRefused began =>
    exact ⟨by simpa using (hs.began_fresh began).grown, by simp [Frame.begins]⟩
  | providerBegun began =>
    have hfresh := hs.began_fresh began
    refine ⟨hfresh.grown, ?_⟩
    intro f hf r' hr'
    rw [List.mem_singleton] at hf
    subst hf
    cases hr'
    exact (hfresh.used _).mpr (.inl rfl)
  | failsBegin => exact ⟨le_refl _, by simpa [Frame.begins] using begins⟩
  | cleanedFailed => exact ⟨le_refl _, by simpa [Frame.begins] using begins⟩
  | drops => exact ⟨by simp, by simp [Frame.begins]⟩
  | finds => exact ⟨le_refl _, by simp [Frame.begins]⟩
  | swaps => exact ⟨le_refl _, by simp [Frame.begins]⟩
  | settles => exact ⟨le_refl _, by simp [Frame.begins]⟩
  | proceeds slot slot' =>
    refine ⟨le_refl _, hnone _ ?_⟩
    intro f hf
    rw [List.mem_singleton] at hf
    exact hf ▸ Frame.begins_of_slot slot'
  | provides slot slot' =>
    refine ⟨le_refl _, hnone _ ?_⟩
    intro f hf
    rw [List.mem_singleton] at hf
    exact hf ▸ Frame.begins_of_slot slot'
  | works => exact ⟨le_refl _, by simp [Frame.begins]⟩
  | announces => exact ⟨le_refl _, by simp [Frame.begins]⟩
  | silent => exact ⟨le_refl _, by simp [Frame.begins]⟩
  | scheduleAccepted _ _ sent =>
    obtain ⟨t, -, rfl, -⟩ := Memory.submit_accepted sent
    exact ⟨le_refl _, by simp [Frame.begins]⟩
  | scheduleImmediate _ _ sent =>
    obtain ⟨rfl, -⟩ := Memory.submit_immediate sent
    exact ⟨le_refl _, by simp [Frame.begins]⟩
  | finishesAgain => exact ⟨le_refl _, hnone _ (hafter _ _)⟩
  | finishes => exact ⟨le_refl _, hnone _ (hafter _ _)⟩
  | finishesBlock => exact ⟨le_refl _, by simp [Frame.begins]⟩
  | publishesNothing => exact ⟨le_refl _, hnone _ (hafter _ _)⟩
  | publishAccepted _ _ _ sent =>
    obtain ⟨t, -, rfl, -⟩ := Memory.submit_accepted sent
    exact ⟨le_refl _, hnone _ (hafter _ _)⟩
  | publishImmediate _ _ _ sent =>
    obtain ⟨rfl, -⟩ := Memory.submit_immediate sent
    refine ⟨le_refl _, hnone _ ?_⟩
    intro f hf
    rcases List.mem_cons.mp hf with rfl | hf
    · rfl
    · exact hafter _ _ f hf
  | retiresAgain => exact ⟨le_refl _, by simp [Frame.begins]⟩
  | retires => exact ⟨by simp, by simp [Frame.begins]⟩
  | releases => exact ⟨le_refl _, by simp⟩
  | releasesLast => exact ⟨le_refl _, by simp [Frame.begins]⟩
  | destroys => exact ⟨le_refl _, by simp [Frame.begins]⟩
  | destroysNothing => exact ⟨le_refl _, by simp [Frame.begins]⟩
  | destroyed => exact ⟨le_refl _, by simp [Frame.begins]⟩
  | cleansNothing => exact ⟨le_refl _, by simp [Frame.begins]⟩
  | cleans => exact ⟨le_refl _, by simp [Frame.begins]⟩
  | cleaned => exact ⟨le_refl _, by simp [Frame.begins]⟩
  | recycles => exact ⟨le_refl _, by simp⟩

end Effects

/-- Nobody holds anything when the program starts. -/
theorem sound_start {limit : ℕ} :
    Sound limit (.start .empty : Memory Op) (fun _ => 0) (fun _ => 0) := by
  have hkept : ∀ i, (.start .empty : Memory Op).kept i = 0 := by
    intro i
    simp [Memory.kept, Memory.start, AsyncState.fresh, QueuePool.weigh_empty]
  constructor
  · intro i
    rw [hkept]
    simp [Memory.start, AsyncState.fresh]
  · intro i
    rw [hkept]
    omega
  · intro i
    rw [hkept]
    simp [Memory.start]
  · intro i hi
    simp [Memory.start] at hi
  · intro i _ _
    simp [Memory.start, AsyncState.fresh]
  · intro b r hsigned
    simp [Memory.start] at hsigned
    cases hsigned

namespace AsyncThreads

open Runs

variable {limit : ℕ} {g : Granularity} {s s' : AsyncThreads Op} {i : ℕ} {c : Choice Op}
  {ev : List Event}

/-- The holds on slot `r`, of blocks, queued tasks and activations together. -/
def count (s : AsyncThreads Op) (r : SlotId) : ℕ :=
  s.memory.kept r + Stacks.total (Frame.holds r) s.threads

/-- The accounts of the whole system. -/
structure Audit (limit : ℕ) (s : AsyncThreads Op) : Prop where
  sound : Sound limit s.memory (fun r => Stacks.total (Frame.holds r) s.threads)
    (fun r => Stacks.total (Frame.disposes r) s.threads)
  begins : ∀ stack ∈ s.threads, ∀ f ∈ stack, ∀ r, f.begins = some r → (r : ℕ) < s.memory.used

/-- Thread `i` is about to exchange the word of slot `r`, in which it has found its token. -/
def Swapping (s : AsyncThreads Op) (i : ℕ) (r : SlotId) : Prop :=
  ∃ rest b q t, s.threads[i]? = some (.findSwap b q r t (s.memory.slots r).state :: rest) ∧
    tokenOf (s.memory.slots r).state = t

/-- Every hold that `find` is about to take is taken on a live slot with room for it. -/
structure Ready (limit : ℕ) (g : Granularity) (s : AsyncThreads Op) (i : ℕ) (c : Choice Op) :
    Prop where
  swap : c.certain → ∀ r, s.Swapping i r → 0 < s.count r ∧ s.count r < limit
  find : g = .whole → ∀ a r, s.memory.find (some a) = some r → s.count r < limit

theorem total_moved (w : Frame → ℕ) {old rest : List Frame} (new : List Frame)
    (hstack : s.threads[i]? = some (old ++ rest)) :
    Stacks.weight w old ≤ Stacks.total w s.threads ∧
      Stacks.total w (s.threads.set i (new ++ rest)) =
        Stacks.total w s.threads - Stacks.weight w old + Stacks.weight w new := by
  have hset := Stacks.total_set w hstack (new ++ rest)
  have hle := Stacks.weight_le_total w (List.mem_of_getElem? hstack)
  simp only [Stacks.weight_append] at hset hle
  omega

theorem frames_moved {P : Frame → Prop} {old rest new : List Frame}
    (hstack : s.threads[i]? = some (old ++ rest))
    (all : ∀ stack ∈ s.threads, ∀ f ∈ stack, P f) (fresh : ∀ f ∈ new, P f) :
    ∀ stack ∈ s.threads.set i (new ++ rest), ∀ f ∈ stack, P f := by
  intro stack hmem f hf
  rcases List.mem_or_eq_of_mem_set hmem with hmem | rfl
  · exact all stack hmem f hf
  · rcases List.mem_append.mp hf with hf | hf
    · exact fresh f hf
    · exact all _ (List.mem_of_getElem? hstack) f (List.mem_append_right _ hf)

theorem Audit.step (audit : Audit limit s) (large : 2 ^ 16 - 1 ≤ limit) (small : limit ≤ 2 ^ 16)
    (h : step g s (i, c) = some (s', ev)) (ready : Ready limit g s i c) : Audit limit s' := by
  rcases step_cases h with ⟨fault, rfl, rfl⟩ | ⟨old, rest, new, n, hstack, heffect, -, rfl⟩
  · exact ⟨audit.sound, audit.begins⟩
  have hold := fun r => total_moved (Frame.holds r) new hstack
  have hdisposed := fun r => total_moved (Frame.disposes r) new hstack
  have hbegins : ∀ f ∈ old, ∀ r, f.begins = some r → (r : ℕ) < s.memory.used := fun f hf =>
    audit.begins _ (List.mem_of_getElem? hstack) f (List.mem_append_left _ hf)
  have hsound : Sound limit n
      (fun r => Stacks.total (Frame.holds r) s.threads - Stacks.weight (Frame.holds r) old +
        Stacks.weight (Frame.holds r) new)
      (fun r => Stacks.total (Frame.disposes r) s.threads - Stacks.weight (Frame.disposes r) old +
        Stacks.weight (Frame.disposes r) new) := by
    refine heffect.sound large small ?_ ?_ hbegins ?_
    · intro certain b q r t hold' htoken
      subst hold'
      obtain ⟨hlive, hlt⟩ := ready.swap certain r ⟨rest, b, q, t, hstack, htoken⟩
      simp only [count] at hlive hlt
      simp only [Stacks.weight_cons, Stacks.weight_nil, Frame.holds, Frame.slot]
      constructor
      · simpa using hlive
      · simpa using hlt
    · intro mode a r hfind
      have hlt := ready.find mode a r hfind
      simp only [count] at hlt
      omega
    · refine audit.sound.congr ?_ ?_
      · intro r
        have := (hold r).1
        omega
      · intro r
        have := (hdisposed r).1
        omega
  constructor
  · exact hsound.congr (fun r => (hold r).2) fun r => (hdisposed r).2
  · obtain ⟨hused, hnew⟩ := heffect.begins audit.sound hbegins
    refine frames_moved hstack ?_ hnew
    intro stack hmem f hf r hr
    exact (audit.begins stack hmem f hf r hr).trans_le hused

theorem audit_start (threads : ℕ) : Audit limit (start threads : AsyncThreads Op) := by
  constructor
  · exact sound_start.congr (fun r => by simp [start]) fun r => by simp [start]
  · intro stack hmem f hf
    obtain ⟨-, rfl⟩ := List.mem_replicate.mp hmem
    cases hf

/-- The accounts, where looking up is one step and nobody is ever in the middle of it. -/
structure Accounted (s : AsyncThreads Op) : Prop where
  audit : Audit (2 ^ 16) s
  whole : ∀ stack ∈ s.threads, ∀ f ∈ stack, ¬ f.finds

theorem Accounted.ready (accounted : Accounted s) (i : ℕ) (c : Choice Op) :
    Ready (2 ^ 16) .whole s i c := by
  constructor
  · rintro - r ⟨rest, b, q, t, hstack, -⟩
    have hnot := accounted.whole _ (List.mem_of_getElem? hstack) (.findSwap b q r t
      (s.memory.slots r).state) (by simp)
    exact absurd trivial hnot
  · intro _ a r hfind
    exact accounted.audit.sound.find_room hfind

theorem Accounted.step (accounted : Accounted s) (h : step .whole s (i, c) = some (s', ev)) :
    Accounted s' := by
  constructor
  · exact accounted.audit.step (by norm_num) (le_refl _) h (accounted.ready i c)
  · rcases step_cases h with ⟨fault, rfl, rfl⟩ | ⟨old, rest, new, n, hstack, heffect, -, rfl⟩
    · exact accounted.whole
    · refine frames_moved hstack accounted.whole ?_
      intro f hf hfinds
      rcases (heffect.calm f hf).2 hfinds with hsplit | ⟨f', hf', hfinds'⟩
      · cases hsplit
      · exact accounted.whole _ (List.mem_of_getElem? hstack) f' (List.mem_append_left _ hf')
          hfinds'

theorem accounted_start (threads : ℕ) : Accounted (start threads : AsyncThreads Op) := by
  refine ⟨audit_start threads, ?_⟩
  intro stack hmem f hf
  obtain ⟨-, rfl⟩ := List.mem_replicate.mp hmem
  cases hf

/-- Where looking up is one step, the accounts hold in every run: the count may run over once, and
then no look-up succeeds any more. -/
theorem reaches_accounted {ok : AsyncThreads Op → ℕ × Choice Op → Prop} {threads : ℕ}
    {tr : List Event} (h : Reaches (step .whole) ok (start threads) tr s) : Accounted s := by
  refine h.state_invariant (P := Accounted) (accounted_start threads) ?_
  rintro s ⟨i, c⟩ t ev haccounted - hstep
  exact haccounted.step hstep

end AsyncThreads

end IW4x.Gdk
