import Mathlib.Data.List.FinRange
import IW4x.Hex.Digits
import IW4x.Lib.Refinements
import IW4x.Gdk.Handlers

/-!
# Tables of handlers of any capacity

A table keeps its handlers and which of them are used in two arrays, and the token of a handler is the
number of its slot, from 1 on. A handler that was removed stays in its slot. Over this stands what a
table is for, a partial map from tokens to handlers.
-/

namespace IW4x.Gdk

open Hex Refinements

/-- `handler_table<H, N>`. -/
structure HandlerSlots (H : Type) (N : BitVec 64) where
  handlers : Fin N.toNat → H
  used : Fin N.toNat → Bool

def tokenAt {N : BitVec 64} (i : Fin N.toNat) : BitVec 64 := BitVec.ofNat 64 i + 1

def slotAt (N token : BitVec 64) : Option (Fin N.toNat) :=
  if h : token = 0 ∨ token > N then none
  else some ⟨(token - 1).toNat, by
    obtain ⟨hzero, hle⟩ := not_or.mp h
    have hpos : token.toNat ≠ 0 := fun heq => hzero (BitVec.eq_of_toNat_eq heq)
    have hbound : token.toNat ≤ N.toNat := BitVec.not_lt.mp hle
    have hone : (1 : BitVec 64) ≤ token := by
      rw [BitVec.le_def]
      exact Nat.one_le_iff_ne_zero.mpr hpos
    rw [BitVec.toNat_sub_of_le hone]
    exact lt_of_lt_of_le (Nat.sub_lt (Nat.pos_of_ne_zero hpos) Nat.one_pos) hbound⟩

inductive TableCall (H : Type)
  | add (h : H)
  | remove (token : BitVec 64)

/-- What such a call answers. -/
inductive TableAnswer
  | token (token : BitVec 64)
  | removed (ok : Bool)
  deriving DecidableEq, Repr

namespace HandlerSlots

variable {H : Type} {N : BitVec 64}

/-- The default constructor, with the value that initializes the handlers. -/
def empty (h₀ : H) : HandlerSlots H N := ⟨fun _ => h₀, fun _ => false⟩

/-- The first slot that is not used. -/
def free (t : HandlerSlots H N) : Option (Fin N.toNat) :=
  (List.finRange N.toNat).find? fun i => !t.used i

def add (t : HandlerSlots H N) (h : H) : BitVec 64 × HandlerSlots H N :=
  match t.free with
  | none => (0, t)
  | some i => (tokenAt i, ⟨Function.update t.handlers i h, Function.update t.used i true⟩)

def remove (t : HandlerSlots H N) (token : BitVec 64) : Bool × HandlerSlots H N :=
  match slotAt N token with
  | none => (false, t)
  | some i =>
    if t.used i then (true, { t with used := Function.update t.used i false }) else (false, t)

def call (t : HandlerSlots H N) : TableCall H → TableAnswer × HandlerSlots H N
  | .add h => (.token (t.add h).1, (t.add h).2)
  | .remove token => (.removed (t.remove token).1, (t.remove token).2)

/-- The loop of `live` over the slots that are left, with `k` handlers stored. The cells are addressed
by handlers, not by bytes. -/
def liveLoop (t : HandlerSlots H N) (out : ℕ) (n : BitVec 64) :
    List (Fin N.toNat) → (ℕ → H) → BitVec 64 → (ℕ → H) × BitVec 64
  | [], cells, k => (cells, k)
  | i :: is, cells, k =>
    if k = n then (cells, k)
    else if t.used i then
      liveLoop t out n is (Function.update cells (out + k.toNat) (t.handlers i)) (k + 1)
    else liveLoop t out n is cells k

def live (t : HandlerSlots H N) (cells : ℕ → H) (out : ℕ) (n : BitVec 64) :
    Except Contract ((ℕ → H) × BitVec 64) := do
  require .precondition (out ≠ 0 ∨ n = 0)
  return t.liveLoop out n (List.finRange N.toNat) cells 0

def size (t : HandlerSlots H N) : BitVec 64 :=
  (List.finRange N.toNat).foldl (fun k i => k + if t.used i then 1 else 0) 0

end HandlerSlots

/-! ## What a table is for -/

/-- A partial map from the tokens 1 to `N` to handlers. -/
@[ext] structure HandlerMap (H : Type) (N : BitVec 64) where
  find : BitVec 64 → Option H
  within : ∀ token, (find token).isSome → 0 < token ∧ token ≤ N

namespace HandlerMap

variable {H : Type} {N : BitVec 64}

def empty : HandlerMap H N := ⟨fun _ => none, by simp⟩

/-- The handlers in the order of their tokens. -/
def live (m : HandlerMap H N) : List H := (List.finRange N.toNat).filterMap fun i => m.find (tokenAt i)

inductive Step : HandlerMap H N → TableCall H → TableAnswer → HandlerMap H N → Prop
  | added {m m' : HandlerMap H N} {h : H} {token : BitVec 64} (room : m.live.length < N.toNat)
      (nonzero : token ≠ 0) (fresh : m.find token = none)
      (bound : m'.find = Function.update m.find token (some h)) :
      Step m (.add h) (.token token) m'
  | full {m : HandlerMap H N} {h : H} (taken : m.live.length = N.toNat) :
      Step m (.add h) (.token 0) m
  | removed {m m' : HandlerMap H N} {h : H} {token : BitVec 64} (known : m.find token = some h)
      (forgotten : m'.find = Function.update m.find token none) :
      Step m (.remove token) (.removed true) m'
  | unknown {m : HandlerMap H N} {token : BitVec 64} (unknown : m.find token = none) :
      Step m (.remove token) (.removed false) m

end HandlerMap

def stored {H : Type} (cells : ℕ → H) (a : ℕ) (l : List H) : ℕ → H := fun x =>
  if a ≤ x then l[x - a]?.getD (cells x) else cells x

structure HandlerSlots.Shows {H : Type} {N : BitVec 64} (t : HandlerSlots H N) (m : HandlerMap H N) :
    Prop where
  /-- `live` stores as many handlers as there is room for, the first ones, and writes nothing else. -/
  live : ∀ (cells : ℕ → H) (out : ℕ) (n : BitVec 64), out ≠ 0 ∨ n = 0 →
    ∃ k, t.live cells out n = .ok (stored cells out (m.live.take n.toNat), k) ∧
      k.toNat = min n.toNat m.live.length
  size : t.size.toNat = m.live.length

/-! ## Slots and tokens -/

section

variable {N : BitVec 64}

theorem tokenAt_toNat (i : Fin N.toNat) : (tokenAt i).toNat = i.val + 1 := by
  have hi := i.isLt
  have hN := N.isLt
  have hval : (BitVec.ofNat 64 i.val).toNat = i.val := by
    rw [BitVec.toNat_ofNat]
    exact Nat.mod_eq_of_lt (by omega)
  have hone : (1 : BitVec 64).toNat = 1 := rfl
  rw [tokenAt, BitVec.toNat_add_of_lt (by omega), hval, hone]

theorem tokenAt_ne_zero (i : Fin N.toNat) : tokenAt i ≠ 0 := by
  intro hzero
  have htoken := tokenAt_toNat i
  rw [hzero] at htoken
  cases htoken

/-- A slot is the one of a token just if the token is the one of the slot. -/
theorem slotAt_eq_some {token : BitVec 64} {i : Fin N.toNat} :
    slotAt N token = some i ↔ token = tokenAt i := by
  have hi := i.isLt
  have hone : (1 : BitVec 64).toNat = 1 := rfl
  constructor
  · intro h
    rw [slotAt] at h
    split_ifs at h with hout
    obtain ⟨hzero, -⟩ := not_or.mp hout
    have hpos : token.toNat ≠ 0 := BitVec.toNat_ne.mp hzero
    have hval : (token - 1).toNat = i.val := congrArg Fin.val (Option.some.inj h)
    rw [BitVec.toNat_sub_of_le (by rw [BitVec.le_def]; omega)] at hval
    apply BitVec.eq_of_toNat_eq
    rw [tokenAt_toNat]
    omega
  · rintro rfl
    have htoken := tokenAt_toNat i
    have hin : ¬ (tokenAt i = 0 ∨ tokenAt i > N) := by
      rintro (hzero | hlarge)
      · exact tokenAt_ne_zero i hzero
      · have hlt : N.toNat < (tokenAt i).toNat := hlarge
        omega
    rw [slotAt, dif_neg hin]
    congr 1
    apply Fin.ext
    change (tokenAt i - 1).toNat = i.val
    rw [BitVec.toNat_sub_of_le (by rw [BitVec.le_def]; omega)]
    omega

@[simp] theorem slotAt_tokenAt (i : Fin N.toNat) : slotAt N (tokenAt i) = some i :=
  slotAt_eq_some.mpr rfl

theorem tokenAt_inj {i j : Fin N.toNat} : tokenAt i = tokenAt j ↔ i = j := by
  constructor
  · intro h
    have hslot := slotAt_tokenAt i
    rw [h, slotAt_tokenAt] at hslot
    exact (Option.some.inj hslot).symm
  · rintro rfl
    rfl

theorem tokenAt_within (i : Fin N.toNat) : 0 < tokenAt i ∧ tokenAt i ≤ N := by
  have htoken := tokenAt_toNat i
  have hi := i.isLt
  constructor
  · rw [BitVec.lt_def, htoken]
    exact Nat.succ_pos _
  · rw [BitVec.le_def]
    omega

end

namespace HandlerSlots

variable {H : Type} {N : BitVec 64}

def cell (t : HandlerSlots H N) (i : Fin N.toNat) : Option H :=
  if t.used i then some (t.handlers i) else none

/-- The map that a table stands for. -/
def toMap (t : HandlerSlots H N) : HandlerMap H N where
  find token := (slotAt N token).bind t.cell
  within token h := by
    obtain ⟨h, hfind⟩ := Option.isSome_iff_exists.mp h
    obtain ⟨i, hslot, -⟩ := Option.bind_eq_some_iff.mp hfind
    rw [slotAt_eq_some.mp hslot]
    exact tokenAt_within i

@[simp] theorem find_tokenAt (t : HandlerSlots H N) (i : Fin N.toNat) :
    t.toMap.find (tokenAt i) = t.cell i := by
  change (slotAt N (tokenAt i)).bind t.cell = t.cell i
  rw [slotAt_tokenAt, Option.bind_some]

theorem toMap_live (t : HandlerSlots H N) :
    t.toMap.live = (List.finRange N.toNat).filterMap t.cell := by
  rw [HandlerMap.live]
  congr 1
  funext i
  exact t.find_tokenAt i

theorem cell_isSome (t : HandlerSlots H N) (i : Fin N.toNat) : (t.cell i).isSome = t.used i := by
  rw [cell]
  cases t.used i <;> rfl

theorem cell_eq_none {t : HandlerSlots H N} {i : Fin N.toNat} :
    t.cell i = none ↔ t.used i = false := by
  rw [← Option.isNone_iff_eq_none, ← Option.not_isSome, cell_isSome, Bool.not_eq_true']

/-- What is in a slot decides what the map says of its token. -/
theorem toMap_update {t u : HandlerSlots H N} {i : Fin N.toNat} {a : Option H}
    (h : u.cell = Function.update t.cell i a) :
    u.toMap.find = Function.update t.toMap.find (tokenAt i) a := by
  funext token
  change (slotAt N token).bind u.cell = _
  cases hslot : slotAt N token with
  | none =>
    have hne : token ≠ tokenAt i := by
      rintro rfl
      rw [slotAt_tokenAt] at hslot
      cases hslot
    rw [Function.update_of_ne hne]
    change _ = (slotAt N token).bind t.cell
    rw [hslot, Option.bind_none, Option.bind_none]
  | some j =>
    rw [slotAt_eq_some.mp hslot, Option.bind_some, h]
    by_cases hj : j = i
    · rw [hj, Function.update_self, Function.update_self]
    · rw [Function.update_of_ne hj, Function.update_of_ne (fun heq => hj (tokenAt_inj.mp heq)),
        find_tokenAt]

theorem cell_put (t : HandlerSlots H N) (i : Fin N.toNat) (h : H) :
    cell ⟨Function.update t.handlers i h, Function.update t.used i true⟩ =
      Function.update t.cell i (some h) := by
  funext j
  by_cases hj : j = i
  · rw [hj]
    simp [cell]
  · simp [cell, hj]

theorem cell_drop (t : HandlerSlots H N) (i : Fin N.toNat) :
    cell { t with used := Function.update t.used i false } = Function.update t.cell i none := by
  funext j
  by_cases hj : j = i
  · rw [hj]
    simp [cell]
  · simp [cell, hj]

/-! ## The calls -/

theorem free_eq_none {t : HandlerSlots H N} : t.free = none ↔ ∀ i, t.used i = true := by
  simp [free, List.find?_eq_none]

theorem live_full {t : HandlerSlots H N} :
    t.toMap.live.length = N.toNat ↔ ∀ i, t.used i = true := by
  have h : ((List.finRange N.toNat).filterMap t.cell).length = (List.finRange N.toNat).length ↔ _ :=
    List.filterMap_length_eq_length
  rw [List.length_finRange] at h
  rw [toMap_live, h]
  simp [cell_isSome]

theorem live_room {t : HandlerSlots H N} :
    t.toMap.live.length < N.toNat ↔ ∃ i, t.used i = false := by
  have h : ((List.finRange N.toNat).filterMap t.cell).length < (List.finRange N.toNat).length ↔ _ :=
    List.length_filterMap_lt_length_iff_exists
  rw [List.length_finRange] at h
  rw [toMap_live, h]
  simp [cell_eq_none]

theorem add_allowed (t : HandlerSlots H N) (h : H) :
    HandlerMap.Step t.toMap (.add h) (.token (t.add h).1) (t.add h).2.toMap := by
  cases hfree : t.free with
  | none =>
    rw [add, hfree]
    exact .full (live_full.mpr (free_eq_none.mp hfree))
  | some i =>
    have hunused : t.used i = false := by
      have := List.find?_some hfree
      rwa [Bool.not_eq_true'] at this
    rw [add, hfree]
    refine .added (live_room.mpr ⟨i, hunused⟩) (tokenAt_ne_zero i) ?_ (toMap_update (t.cell_put i h))
    rw [find_tokenAt, cell_eq_none]
    exact hunused

theorem remove_allowed (t : HandlerSlots H N) (token : BitVec 64) :
    HandlerMap.Step t.toMap (.remove token) (.removed (t.remove token).1)
      (t.remove token).2.toMap := by
  cases hslot : slotAt N token with
  | none =>
    rw [remove, hslot]
    apply HandlerMap.Step.unknown
    change (slotAt N token).bind t.cell = none
    rw [hslot, Option.bind_none]
  | some i =>
    rw [remove, hslot]
    obtain rfl := slotAt_eq_some.mp hslot
    dsimp only
    by_cases hused : t.used i = true
    · rw [if_pos hused]
      refine .removed (h := t.handlers i) ?_ (toMap_update (t.cell_drop i))
      rw [find_tokenAt, cell, if_pos hused]
    · rw [if_neg hused]
      apply HandlerMap.Step.unknown
      rw [find_tokenAt, cell, if_neg hused]

theorem call_allowed (t : HandlerSlots H N) (c : TableCall H) :
    HandlerMap.Step t.toMap c (t.call c).1 (t.call c).2.toMap := by
  cases c with
  | add h => exact t.add_allowed h
  | remove token => exact t.remove_allowed token

theorem empty_toMap (h₀ : H) : (empty h₀ : HandlerSlots H N).toMap = .empty := by
  ext token : 2
  change (slotAt N token).bind (empty h₀).cell = none
  cases hslot : slotAt N token with
  | none => rfl
  | some i => exact cell_eq_none.mpr rfl

/-! ## What is shown -/

theorem stored_nil (cells : ℕ → H) (a : ℕ) : stored cells a [] = cells := by
  funext x
  simp [stored]

theorem stored_cons (cells : ℕ → H) (a : ℕ) (h : H) (l : List H) :
    stored (Function.update cells a h) (a + 1) l = stored cells a (h :: l) := by
  funext x
  rcases Nat.lt_trichotomy x a with hlt | rfl | hgt
  · rw [stored, stored, if_neg (by omega), if_neg (by omega), Function.update_of_ne hlt.ne]
  · rw [stored, stored, if_neg (by omega), if_pos le_rfl, Nat.sub_self, Function.update_self]
    rfl
  · have hindex : x - a = x - (a + 1) + 1 := by omega
    rw [stored, stored, if_pos (by omega), if_pos hgt.le, Function.update_of_ne hgt.ne', hindex,
      List.getElem?_cons_succ]

/-- What the loop stores are the handlers of the slots that are left, as long as there is room. -/
theorem liveLoop_stores (t : HandlerSlots H N) (out : ℕ) (n : BitVec 64) (is : List (Fin N.toNat))
    (cells : ℕ → H) {k : BitVec 64} (hk : k ≤ n) :
    ∃ k', t.liveLoop out n is cells k = (stored cells (out + k.toNat)
        ((is.filterMap t.cell).take (n.toNat - k.toNat)), k') ∧
      k'.toNat = min n.toNat (k.toNat + (is.filterMap t.cell).length) := by
  have hle : k.toNat ≤ n.toNat := hk
  induction is generalizing cells k with
  | nil =>
    use k
    constructor
    · rw [List.filterMap_nil, List.take_nil, stored_nil]
      rfl
    · rw [List.filterMap_nil, List.length_nil]
      omega
  | cons i is ih =>
    rw [liveLoop]
    split_ifs with hfull hused
    · use k
      constructor
      · rw [hfull, Nat.sub_self, List.take_zero, stored_nil]
      · rw [hfull]
        omega
    · have hlt : k.toNat < n.toNat := lt_of_le_of_ne hle (BitVec.toNat_ne.mp hfull)
      have hn := n.isLt
      have hone : (1 : BitVec 64).toNat = 1 := rfl
      have hnext : (k + 1).toNat = k.toNat + 1 := by
        rw [BitVec.toNat_add_of_lt (by omega), hone]
      obtain ⟨k', hloop, hcount⟩ := ih (Function.update cells (out + k.toNat) (t.handlers i))
        (k := k + 1) (by rw [BitVec.le_def]; omega) (by omega)
      have hcell : t.cell i = some (t.handlers i) := if_pos hused
      have hroom : n.toNat - k.toNat = n.toNat - (k.toNat + 1) + 1 := by omega
      use k'
      constructor
      · rw [hloop, hnext, List.filterMap_cons_some hcell, hroom, List.take_succ_cons,
          ← Nat.add_assoc, stored_cons]
      · rw [hcount, hnext, List.filterMap_cons_some hcell, List.length_cons]
        omega
    · have hcell : t.cell i = none := if_neg hused
      rw [List.filterMap_cons_none hcell]
      exact ih cells hk hle

theorem size_counts (t : HandlerSlots H N) (is : List (Fin N.toNat)) {k : BitVec 64}
    (hroom : k.toNat + is.length < 2 ^ 64) :
    (is.foldl (fun k i => k + if t.used i then 1 else 0) k).toNat = k.toNat + is.countP t.used := by
  induction is generalizing k with
  | nil => rfl
  | cons i is ih =>
    rw [List.length_cons] at hroom
    have hone : (1 : BitVec 64).toNat = 1 := rfl
    rw [List.foldl_cons, List.countP_cons]
    cases hused : t.used i with
    | false =>
      have hsame : k + (if false = true then 1 else 0) = k := BitVec.add_zero k
      rw [hsame, ih (by omega)]
      rfl
    | true =>
      have hnext : (k + if true = true then 1 else 0).toNat = k.toNat + 1 := by
        rw [if_pos rfl, BitVec.toNat_add_of_lt (by omega), hone]
      rw [ih (by omega), hnext, if_pos rfl]
      omega

theorem shows_toMap (t : HandlerSlots H N) : t.Shows t.toMap where
  live := by
    intro cells out n hout
    obtain ⟨k, hloop, hcount⟩ :=
      t.liveLoop_stores out n (List.finRange N.toNat) cells (k := 0) (Nat.zero_le _)
    use k
    constructor
    · rw [live, require_of hout, toMap_live]
      exact congrArg Except.ok hloop
    · rw [hcount, toMap_live]
      exact congrArg (min n.toNat) (Nat.zero_add _)
  size := by
    have hN := N.isLt
    rw [size, size_counts t _ (by rw [List.length_finRange]; exact (Nat.zero_add _).trans_lt hN),
      toMap_live, List.length_filterMap_eq_countP]
    simp only [cell_isSome]
    exact Nat.zero_add _

end HandlerSlots

/-- A table of any capacity refines a partial map from tokens to handlers: whatever is called, its
answers are what the map may answer, and what it shows is what the map has. -/
theorem handlerSlots_refine {H : Type} (N : BitVec 64) (h₀ : H) (calls : List (TableCall H)) :
    ∃ (t : HandlerSlots H N) (rs : List TableAnswer) (m : HandlerMap H N),
      answers HandlerSlots.call (.empty h₀) calls = (rs, t) ∧
        Allows HandlerMap.Step .empty calls rs m ∧ t.Shows m := by
  have hsteps := simulates_of_map HandlerSlots.toMap (HandlerSlots.call_allowed (H := H) (N := N))
  obtain ⟨m, hallows, hm⟩ := hsteps.run calls (HandlerSlots.empty_toMap h₀)
  refine ⟨_, _, m, rfl, hallows, ?_⟩
  rw [← hm]
  exact HandlerSlots.shows_toMap _

-- A token that was given back is given out again, and bound to the new handler alone.
example : (answers HandlerSlots.call (.empty 0 : HandlerSlots ℕ 4)
    [.add 1, .add 2, .remove 1, .remove 1, .add 3]).1 =
      [.token 1, .token 2, .removed true, .removed false, .token 1] := by decide

/-! ## Tables of eight slots -/

namespace HandlerSlots

variable {H : Type}

/-- The table of the default capacity, without the handlers that were removed. -/
def toTable (t : HandlerSlots H 8) : HandlerTable H := ⟨t.cell⟩

theorem slotOf_toNat (token : BitVec 64) : HandlerTable.slotOf token.toNat = slotAt 8 token := by
  have hone : (1 : BitVec 64).toNat = 1 := rfl
  have height : token > 8 ↔ 8 < token.toNat := Iff.rfl
  have hzero : token = 0 ↔ token.toNat = 0 := BitVec.toNat_inj.symm
  rw [HandlerTable.slotOf, slotAt]
  simp only [height, hzero]
  by_cases hin : 0 < token.toNat ∧ token.toNat ≤ 8
  · have hval : (token - 1).toNat = token.toNat - 1 :=
      BitVec.toNat_sub_of_le (by rw [BitVec.le_def]; omega)
    rw [dif_pos hin, dif_neg (by omega)]
    exact congrArg some (Fin.ext hval.symm)
  · rw [dif_neg hin, dif_pos (by omega)]

theorem toTable_add (t : HandlerSlots H 8) (h : H) :
    (t.toTable.add h).getD (0, t.toTable) = ((t.add h).1.toNat, (t.add h).2.toTable) := by
  have hfree : t.toTable.free = t.free := by
    rw [HandlerTable.free, free]
    congr 1
    funext i
    exact (Option.not_isSome (t.cell i)).symm.trans (congrArg not (t.cell_isSome i))
  rw [HandlerTable.add, hfree, add]
  cases t.free with
  | none => rfl
  | some i =>
    dsimp only [Option.map_some, Option.getD_some]
    rw [tokenAt_toNat, toTable, toTable, cell_put]

theorem toTable_remove (t : HandlerSlots H 8) (token : BitVec 64) :
    (t.toTable.remove token.toNat).isSome = (t.remove token).1 ∧
      (t.toTable.remove token.toNat).getD t.toTable = (t.remove token).2.toTable := by
  rw [HandlerTable.remove, slotOf_toNat, remove]
  cases slotAt 8 token with
  | none => exact ⟨rfl, rfl⟩
  | some i =>
    have hused : (t.toTable.slots i).isSome = t.used i := t.cell_isSome i
    dsimp only
    rw [hused]
    by_cases hset : t.used i = true
    · rw [if_pos hset, if_pos hset]
      refine ⟨rfl, ?_⟩
      rw [Option.getD_some, toTable, toTable, cell_drop]
    · rw [if_neg hset, if_neg hset]
      exact ⟨rfl, rfl⟩

end HandlerSlots

def HandlerTable.call {H : Type} (t : HandlerTable H) : TableCall H → TableAnswer × HandlerTable H
  | .add h =>
    let added := (t.add h).getD (0, t)
    (.token (BitVec.ofNat 64 added.1), added.2)
  | .remove token =>
    let removed := t.remove token.toNat
    (.removed removed.isSome, removed.getD t)

theorem HandlerSlots.answers_toTable {H : Type} (t : HandlerSlots H 8) (calls : List (TableCall H)) :
    answers HandlerTable.call t.toTable calls =
      ((answers HandlerSlots.call t calls).1, (answers HandlerSlots.call t calls).2.toTable) := by
  apply answers_map HandlerSlots.toTable
  intro t c
  cases c with
  | add h =>
    dsimp only [HandlerTable.call, HandlerSlots.call]
    rw [t.toTable_add h, BitVec.ofNat_toNat, BitVec.setWidth_eq]
  | remove token =>
    obtain ⟨hremoved, htable⟩ := t.toTable_remove token
    dsimp only [HandlerTable.call, HandlerSlots.call]
    rw [hremoved, htable]

end IW4x.Gdk
