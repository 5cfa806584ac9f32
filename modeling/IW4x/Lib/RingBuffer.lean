import Mathlib.Data.List.Range
import Mathlib.Data.List.Perm.Basic
import Mathlib.Logic.Function.Basic
import Mathlib.Tactic

/-!
# A bounded ring of items

An array of `n` slots, the index of the first item and the number of items. `contents` reads
the ring as a list, and each operation is described by what it does to that list: `push` adds
at the end, `pop` drops the first item, and `bringToHead` exchanges the first item with a
later one. Users of the ring reason about the list and never about indices.
-/

/-- A ring of at most `n` items. The bound is part of the structure. -/
structure RingBuffer (α : Type*) (n : ℕ) where
  items : Fin n → α
  head : Fin n
  count : ℕ
  bounded : count ≤ n

namespace RingBuffer

variable {α : Type*} {n : ℕ}

/-- The slot `i` places after the first item, around the end of the array. -/
def index (r : RingBuffer α n) (i : ℕ) : Fin n :=
  ⟨(r.head + i) % n, Nat.mod_lt _ (Nat.pos_of_ne_zero (by have := r.head.isLt; omega))⟩

theorem index_inj (r : RingBuffer α n) {i j : ℕ} (hi : i < n) (hj : j < n) :
    r.index i = r.index j ↔ i = j := by
  have hh := r.head.isLt
  constructor
  · intro h
    have h := congrArg Fin.val h
    simp only [index] at h
    have hcase : ∀ k, k < n → (r.head + k) % n = if r.head + k < n then r.head + k
        else r.head + k - n := by
      intro k hk
      split_ifs with hlt
      · exact Nat.mod_eq_of_lt hlt
      · rw [Nat.mod_eq_sub_mod (by omega), Nat.mod_eq_of_lt (by omega)]
    rw [hcase i hi, hcase j hj] at h
    split_ifs at h <;> omega
  · rintro rfl; rfl

/-- The item `i` places after the first. -/
def get (r : RingBuffer α n) (i : ℕ) : α := r.items (r.index i)

/-- The items in the order of their places. -/
def contents (r : RingBuffer α n) : List α := (List.range r.count).map r.get

@[simp] theorem length_contents (r : RingBuffer α n) : r.contents.length = r.count := by
  simp [contents]

theorem contents_getElem? (r : RingBuffer α n) {i : ℕ} (h : i < r.count) :
    r.contents[i]? = some (r.get i) := by
  simp [contents, h]

theorem get_mem_contents (r : RingBuffer α n) {i : ℕ} (h : i < r.count) : r.get i ∈ r.contents :=
  List.mem_map_of_mem (List.mem_range.mpr h)

theorem contents_eq_nil (r : RingBuffer α n) : r.contents = [] ↔ r.count = 0 := by
  rw [← List.length_eq_zero_iff, length_contents]

/-- Write one slot, as an assignment to the array does. -/
def write (r : RingBuffer α n) (i : ℕ) (x : α) : RingBuffer α n :=
  { r with items := Function.update r.items (r.index i) x }

/-- Empty the ring without touching the array. -/
def clear (r : RingBuffer α n) : RingBuffer α n := { r with count := 0, bounded := Nat.zero_le _ }

@[simp] theorem contents_clear (r : RingBuffer α n) : r.clear.contents = [] := rfl

/-- Add an item after the last one. -/
def push (r : RingBuffer α n) (x : α) (room : r.count < n) : RingBuffer α n :=
  { r.write r.count x with count := r.count + 1, bounded := room }

@[simp] theorem count_push (r : RingBuffer α n) (x : α) (room : r.count < n) :
    (r.push x room).count = r.count + 1 := rfl

theorem get_push (r : RingBuffer α n) (x : α) (room : r.count < n) {i : ℕ} (hi : i ≤ r.count) :
    (r.push x room).get i = if i = r.count then x else r.get i := by
  have h := r.index_inj (i := i) (j := r.count) (by omega) room
  by_cases heq : i = r.count
  · subst heq
    simp [get, push, write, index]
  · have hne : r.index i ≠ r.index r.count := fun hcontra => heq (h.mp hcontra)
    change Function.update r.items (r.index r.count) x (r.index i) = _
    rw [Function.update_of_ne hne, if_neg heq]
    rfl

@[simp] theorem contents_push (r : RingBuffer α n) (x : α) (room : r.count < n) :
    (r.push x room).contents = r.contents ++ [x] := by
  have hold : (List.range r.count).map (r.push x room).get = (List.range r.count).map r.get := by
    apply List.map_congr_left
    intro i hi
    have hi := List.mem_range.mp hi
    rw [get_push r x room (by omega), if_neg (by omega)]
  simp [contents, List.range_succ, hold, get_push r x room (Nat.le_refl _)]

/-- Drop the first item. -/
def pop (r : RingBuffer α n) : RingBuffer α n :=
  { r with head := r.index 1, count := r.count - 1, bounded := (Nat.sub_le _ _).trans r.bounded }

@[simp] theorem count_pop (r : RingBuffer α n) : r.pop.count = r.count - 1 := rfl

theorem get_pop (r : RingBuffer α n) (i : ℕ) : r.pop.get i = r.get (i + 1) := by
  have hindex : r.pop.index i = r.index (i + 1) := by
    apply Fin.ext
    simp [index, pop, Nat.add_assoc, Nat.add_comm 1 i]
  simp only [get, hindex]
  rfl

theorem contents_pop (r : RingBuffer α n) : r.pop.contents = r.contents.tail := by
  have hget : r.pop.get = fun i => r.get (i + 1) := funext r.get_pop
  cases hcount : r.count with
  | zero => simp [contents, hcount]
  | succ k => simp [contents, hcount, List.range_succ_eq_map, hget, Function.comp_def]

/-- Exchange the first item with the one `i` places after it. -/
def bringToHead (r : RingBuffer α n) (i : ℕ) : RingBuffer α n :=
  (r.write 0 (r.get i)).write i (r.get 0)

@[simp] theorem count_bringToHead (r : RingBuffer α n) (i : ℕ) :
    (r.bringToHead i).count = r.count := rfl

@[simp] theorem index_bringToHead (r : RingBuffer α n) (i j : ℕ) :
    (r.bringToHead i).index j = r.index j := rfl

theorem get_bringToHead (r : RingBuffer α n) {i j : ℕ} (hi : i < n) (hj : j < n) :
    (r.bringToHead i).get j = if j = i then r.get 0 else if j = 0 then r.get i else r.get j := by
  have h0 : 0 < n := by omega
  have hwrite : (r.bringToHead i).items =
      Function.update (Function.update r.items (r.index 0) (r.get i)) (r.index i) (r.get 0) := rfl
  change (r.bringToHead i).items (r.index j) = _
  rw [hwrite]
  by_cases hji : j = i
  · subst hji; simp
  · have hne : r.index j ≠ r.index i := fun h => hji ((r.index_inj hj hi).mp h)
    rw [Function.update_of_ne hne, if_neg hji]
    by_cases hj0 : j = 0
    · subst hj0; simp
    · have hne0 : r.index j ≠ r.index 0 := fun h => hj0 ((r.index_inj hj h0).mp h)
      rw [Function.update_of_ne hne0, if_neg hj0]
      rfl

theorem contents_bringToHead (r : RingBuffer α n) {i : ℕ} (hi : i < r.count) :
    (r.bringToHead i).contents = (r.contents.set 0 (r.get i)).set i (r.get 0) := by
  have hn := r.bounded
  apply List.ext_getElem?
  intro j
  by_cases hj : j < r.count
  · rw [contents_getElem? _ (by simpa using hj), get_bringToHead r (by omega) (by omega),
      List.getElem?_set, List.getElem?_set, r.contents_getElem? hj]
    simp only [List.length_set, length_contents]
    by_cases hji : j = i
    · subst hji; simp [hj]
    · by_cases hj0 : j = 0
      · subst hj0; simp [hj, Ne.symm hji, hji]
      · simp [Ne.symm hji, hji, hj0, Ne.symm hj0]
  · rw [List.getElem?_eq_none (by simpa using hj), List.getElem?_eq_none (by simpa using hj)]

theorem contents_bringToHead_split (r : RingBuffer α n) {x y : α} {between after : List α}
    (h : r.contents = x :: between ++ y :: after) :
    (r.bringToHead (between.length + 1)).contents = y :: between ++ x :: after := by
  have hcount : r.count = between.length + 1 + after.length + 1 := by
    rw [← length_contents, h]
    simp
    omega
  have hx : r.get 0 = x := by
    have := r.contents_getElem? (i := 0) (by omega)
    rw [h] at this
    simpa using this.symm
  have hy : r.get (between.length + 1) = y := by
    have := r.contents_getElem? (i := between.length + 1) (by omega)
    rw [h] at this
    simpa using this.symm
  rw [contents_bringToHead r (by omega), h, hx, hy]
  simp

theorem head_contents (r : RingBuffer α n) (h : 0 < r.count) :
    r.contents = r.get 0 :: r.contents.tail := by
  obtain ⟨k, hk⟩ := Nat.exists_eq_add_of_lt h
  have hk : r.count = k + 1 := by omega
  simp [contents, hk, List.range_succ_eq_map]

/-- An exchange neither loses nor duplicates an item. -/
theorem contents_bringToHead_perm (r : RingBuffer α n) {i : ℕ} (hi : i < r.count) :
    (r.bringToHead i).contents.Perm r.contents := by
  rw [contents_bringToHead r hi]
  have hlen : i < r.contents.length := by simpa using hi
  cases hc : r.contents with
  | nil => simp [hc] at hlen
  | cons x xs =>
    have hx : r.get 0 = x := by
      have := r.contents_getElem? (i := 0) (by omega)
      rw [hc] at this
      simpa using this.symm
    have hy := r.contents_getElem? hi
    rw [hc] at hy
    cases i with
    | zero => simp [hx]
    | succ i =>
      simp only [List.getElem?_cons_succ] at hy
      obtain ⟨hlt, hy⟩ := List.getElem?_eq_some_iff.mp hy
      simp only [List.set_cons_zero, List.set_cons_succ, hx]
      rw [← hy]
      have hset := List.set_eq_take_append_cons_drop (l := xs) (i := i) (a := x)
      rw [if_pos hlt] at hset
      rw [hset]
      have hsplit : xs = xs.take i ++ xs[i] :: xs.drop (i + 1) := by
        simp
      calc (xs[i] :: (xs.take i ++ x :: xs.drop (i + 1))).Perm
            (xs[i] :: x :: (xs.take i ++ xs.drop (i + 1))) := (List.perm_middle).cons _
        _ |>.Perm (x :: xs[i] :: (xs.take i ++ xs.drop (i + 1))) := List.Perm.swap _ _ _
        _ |>.Perm (x :: (xs.take i ++ xs[i] :: xs.drop (i + 1))) := (List.perm_middle.symm).cons _
        _ = x :: xs := by rw [← hsplit]

end RingBuffer
