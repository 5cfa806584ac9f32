import IW4x.Lib.Ownership
import IW4x.Lib.Runs

/-!
# Blobs, files and directories

A blob has an array of its own and hands it over when it is moved; a file and a directory have a
handle of the system. In any order of construction, use, moves and destruction, an array or a handle
is released once, it is there when it is used, and when there are no objects nothing is left behind.
-/

namespace IW4x.Gdk

open Runs Ownership

/-! ## Blobs -/

/-- A `blob`: `data_` and `size_`. -/
structure BlobObject where
  data : Option ℕ
  size : ℕ
  deriving DecidableEq

/-- An empty `blob`. -/
def BlobObject.empty : BlobObject := ⟨none, 0⟩

structure BlobWorld where
  /-- The length of the array at an address. -/
  heap : ℕ → Option ℕ
  /-- The objects that are constructed and not destroyed. -/
  objects : ℕ → Option BlobObject

namespace BlobWorld

def start : BlobWorld := ⟨fun _ => none, fun _ => none⟩

def put (w : BlobWorld) (i : ℕ) (b : Option BlobObject) : BlobWorld :=
  { w with objects := Function.update w.objects i b }

/-- `delete[]`. -/
def deleteArray (w : BlobWorld) : Option ℕ → BlobWorld × List (Event ℕ)
  | none => (w, [])
  | some a =>
    if (w.heap a).isSome then ({ w with heap := Function.update w.heap a none }, [.released a])
    else (w, [.fault])

def clear (w : BlobWorld) (i : ℕ) (b : BlobObject) : BlobWorld × List (Event ℕ) :=
  let r := w.deleteArray b.data
  (r.1.put i (some .empty), r.2)

/-- `resize`, with what `new` gives, and what it answers. -/
def resize (w : BlobWorld) (i : ℕ) (b : BlobObject) (n : ℕ) (new : Option ℕ) :
    Option (BlobWorld × List (Event ℕ) × Bool) :=
  if n = b.size then some (w, [], true)
  else
    let r := w.clear i b
    if n = 0 then some (r.1, r.2, true)
    else
      match new with
      | none => some (r.1, r.2, false)
      | some a =>
        -- `new` gives no array that is in use.
        if (r.1.heap a).isSome then none
        else some ({ r.1.put i (some ⟨some a, n⟩) with heap := Function.update r.1.heap a (some n) },
          r.2 ++ [.acquired a], true)

def moveConstruct (w : BlobWorld) (i j : ℕ) (b : BlobObject) : BlobWorld :=
  (w.put i (some b)).put j (some .empty)

def moveAssign (w : BlobWorld) (i j : ℕ) (a b : BlobObject) : BlobWorld × List (Event ℕ) :=
  if i = j then (w, [])
  else
    let r := w.clear i a
    ((r.1.put i (some b)).put j (some .empty), r.2)

/-- A byte of the array is read or written. -/
def access (w : BlobWorld) (b : BlobObject) (k : ℕ) : List (Event ℕ) :=
  match b.data.bind w.heap with
  | some n => if k < n then [] else [.fault]
  | none => [.fault]

inductive Op where
  | construct (i : ℕ)
  | moveConstruct (i j : ℕ)
  | moveAssign (i j : ℕ)
  | clear (i : ℕ)
  | resize (i n : ℕ) (new : Option ℕ)
  /-- A byte within the size of the blob. -/
  | access (i k : ℕ)
  | destroy (i : ℕ)
  deriving DecidableEq

def step : Step BlobWorld Op (Event ℕ) := fun w op =>
  match op with
  | .construct i =>
    match w.objects i with
    | none => some (w.put i (some .empty), [])
    | some _ => none
  | .moveConstruct i j =>
    match w.objects i, w.objects j with
    | none, some b => some (w.moveConstruct i j b, [])
    | _, _ => none
  | .moveAssign i j =>
    match w.objects i, w.objects j with
    | some a, some b => some (w.moveAssign i j a b)
    | _, _ => none
  | .clear i => (w.objects i).map fun b => w.clear i b
  | .resize i n new =>
    match w.objects i with
    | some b => (w.resize i b n new).map fun r => (r.1, r.2.1)
    | none => none
  | .access i k =>
    match w.objects i with
    | some b => if k < b.size then some (w, w.access b k) else none
    | none => none
  | .destroy i => (w.objects i).map fun b => ((w.clear i b).1.put i none, (w.clear i b).2)

/-- The arrays, and the objects that have them. -/
def holdings (w : BlobWorld) : Holdings ℕ ℕ where
  held := fun i => (w.objects i).bind BlobObject.data
  live := {a | (w.heap a).isSome}

structure Sound (tr : List (Event ℕ)) (w : BlobWorld) : Prop where
  kept : Kept tr w.holdings
  sized : ∀ i b, w.objects i = some b → b.size = (b.data.bind w.heap).getD 0

variable {w t : BlobWorld} {tr ev : List (Event ℕ)} {i j : ℕ} {b : BlobObject}

@[simp] theorem put_heap (w : BlobWorld) (i : ℕ) (o : Option BlobObject) :
    (w.put i o).heap = w.heap := rfl

@[simp] theorem put_objects (w : BlobWorld) (i : ℕ) (o : Option BlobObject) :
    (w.put i o).objects = Function.update w.objects i o := rfl

@[simp] theorem empty_data : BlobObject.empty.data = none := rfl

theorem held_put (w : BlobWorld) (i : ℕ) (o : Option BlobObject) :
    (w.put i o).holdings.held = Function.update w.holdings.held i (o.bind BlobObject.data) := by
  funext j
  by_cases hj : j = i
  · subst hj
    simp [holdings]
  · simp [holdings, hj]

theorem start_sound : Sound [] start where
  kept := by
    have hlive : start.holdings = ⟨fun _ => none, ∅⟩ := by
      simp [holdings, start]
    rw [hlive]
    exact kept_empty
  sized := fun _ _ h => nomatch h

/-- An object without an array is put in the place of one that has none either. -/
theorem put_sound (h : Sound tr w) (vacant : w.holdings.held i = none) {o : Option BlobObject}
    (ho : ∀ b ∈ o, b = .empty) : Sound tr (w.put i o) where
  kept := by
    have hnone : o.bind BlobObject.data = none := by
      cases o with
      | none => rfl
      | some b => rw [ho b rfl, Option.bind_some, empty_data]
    have hsame : (w.put i o).holdings = w.holdings := by
      have hheld := held_put w i o
      rw [hnone, ← vacant, Function.update_eq_self] at hheld
      rw [show w.holdings = ⟨w.holdings.held, w.holdings.live⟩ from rfl, ← hheld]
      rfl
    rw [hsame]
    exact h.kept
  sized := by
    intro j b hb
    by_cases hj : j = i
    · subst hj
      rw [put_objects, Function.update_self] at hb
      rw [ho b hb]
      rfl
    · rw [put_objects, Function.update_of_ne hj] at hb
      exact h.sized j b hb

/-- After `clear` the object is empty, and the others are as they were. -/
theorem clear_sound (h : Sound tr w) (hb : w.objects i = some b) :
    Sound (tr ++ (w.clear i b).2) (w.clear i b).1 ∧ (w.clear i b).1.objects i = some .empty ∧
      ∀ j, j ≠ i → (w.clear i b).1.objects j = w.objects j := by
  have hheld : w.holdings.held i = b.data := by simp [holdings, hb]
  cases hdata : b.data with
  | none =>
    have hclear : w.clear i b = (w.put i (some .empty), []) := by
      rw [clear, hdata]
      rfl
    rw [hclear, List.append_nil]
    refine ⟨put_sound h (hheld.trans hdata) (by simp), by simp, ?_⟩
    intro j hj
    simp [hj]
  | some a =>
    have hin : (w.heap a).isSome = true := h.kept.inside i a (hheld.trans hdata)
    have hclear : w.clear i b =
        (({ w with heap := Function.update w.heap a none } : BlobWorld).put i (some .empty),
          [.released a]) := by
      rw [clear, hdata, deleteArray, if_pos hin]
    rw [hclear]
    refine ⟨?_, by simp, ?_⟩
    · constructor
      · have hrelease : (({ w with heap := Function.update w.heap a none } : BlobWorld).put i
            (some .empty)).holdings = w.holdings.release i := by
          have hlive : ({x | (Function.update w.heap a none x).isSome = true} : Set ℕ) =
              {x | (w.heap x).isSome = true ∧ w.holdings.held i ≠ some x} := by
            ext x
            rw [hheld, hdata]
            by_cases hx : x = a
            · simp [hx]
            · simp [hx, Ne.symm hx]
          exact Holdings.ext (held_put _ i (some .empty)) hlive
        rw [hrelease]
        exact h.kept.release (hheld.trans hdata)
      · intro j b' hb'
        by_cases hj : j = i
        · subst hj
          rw [put_objects, Function.update_self] at hb'
          cases hb'
          rfl
        · have hother : w.objects j = some b' := by simpa [hj] using hb'
          rw [h.sized j b' hother]
          cases hdata' : b'.data with
          | none => rfl
          | some a' =>
            have hne : a' ≠ a := by
              rintro rfl
              have hheld' : w.holdings.held j = some a' := by simp [holdings, hother, hdata']
              exact hj (h.kept.unique j i a' hheld' (hheld.trans hdata))
            simp [hne]
    · intro j hj
      simp [hj]

/-- An empty object is given a new array. -/
theorem fill_sound (h : Sound tr w) (hempty : w.objects i = some .empty) {a n : ℕ}
    (hfresh : (w.heap a).isSome ≠ true) :
    Sound (tr ++ [.acquired a])
      { w.put i (some ⟨some a, n⟩) with heap := Function.update w.heap a (some n) } := by
  have hnone : w.holdings.held i = none := by simp [holdings, hempty]
  constructor
  · have hacquire : ({ w.put i (some ⟨some a, n⟩) with
        heap := Function.update w.heap a (some n) } : BlobWorld).holdings =
        w.holdings.acquire i a := by
      have hlive : ({x | (Function.update w.heap a (some n) x).isSome = true} : Set ℕ) =
          insert a {x | (w.heap x).isSome = true} := by
        ext x
        by_cases hx : x = a
        · simp [hx]
        · simp [hx]
      exact Holdings.ext (held_put w i (some ⟨some a, n⟩)) hlive
    rw [hacquire]
    exact h.kept.acquire hnone hfresh
  · intro j b' hb'
    by_cases hj : j = i
    · subst hj
      rw [put_objects, Function.update_self] at hb'
      cases hb'
      simp
    · have hb : w.objects j = some b' := by simpa [hj] using hb'
      rw [h.sized j b' hb]
      cases hdata : b'.data with
      | none => rfl
      | some a' =>
        have hne : a' ≠ a := by
          rintro rfl
          exact hfresh (h.kept.inside j a' (by simp [holdings, hb, hdata]))
        simp [hne]

/-- An object without an array takes over that of another. -/
theorem move_sound (h : Sound tr w) (apart : j ≠ i) (vacant : w.holdings.held i = none)
    (hb : w.objects j = some b) : Sound tr ((w.put i (some b)).put j (some .empty)) := by
  constructor
  · have htransfer : ((w.put i (some b)).put j (some .empty)).holdings = w.holdings.transfer j i := by
      have hheld : w.holdings.held j = b.data := by simp [holdings, hb]
      apply Holdings.ext
      · rw [held_put, held_put, Option.bind_some, ← hheld]
        rfl
      · rfl
    rw [htransfer]
    exact h.kept.transfer apart vacant
  · intro k b' hb'
    by_cases hkj : k = j
    · subst hkj
      rw [put_objects, Function.update_self] at hb'
      cases hb'
      rfl
    · rw [put_objects, Function.update_of_ne hkj] at hb'
      by_cases hki : k = i
      · subst hki
        rw [put_objects, Function.update_self] at hb'
        cases hb'
        exact h.sized j b hb
      · rw [put_objects, Function.update_of_ne hki] at hb'
        exact h.sized k b' hb'

theorem step_sound (h : Sound tr w) {op : Op} (hstep : step w op = some (t, ev)) :
    Sound (tr ++ ev) t := by
  cases op with
  | construct i =>
    simp only [step] at hstep
    split at hstep
    · rename_i hnone
      cases hstep
      rw [List.append_nil]
      exact put_sound h (by simp [holdings, hnone]) (by simp)
    · cases hstep
  | moveConstruct i j =>
    simp only [step] at hstep
    split at hstep
    · rename_i b hnone hb
      cases hstep
      have hne : j ≠ i := by
        rintro rfl
        rw [hnone] at hb
        cases hb
      rw [List.append_nil]
      exact move_sound h hne (by simp [holdings, hnone]) hb
    · cases hstep
  | moveAssign i j =>
    simp only [step] at hstep
    split at hstep
    · rename_i a b ha hb
      have heq := Option.some.inj hstep
      by_cases hij : i = j
      · rw [moveAssign, if_pos hij] at heq
        cases heq
        rw [List.append_nil]
        exact h
      · obtain ⟨hclear, hempty, hsame⟩ := clear_sound h ha
        have hne : j ≠ i := fun heq => hij heq.symm
        rw [moveAssign, if_neg hij] at heq
        cases heq
        exact move_sound hclear hne (by simp [holdings, hempty]) ((hsame j hne).trans hb)
    · cases hstep
  | clear i =>
    obtain ⟨b, hb, heq⟩ := Option.map_eq_some_iff.mp hstep
    cases heq
    exact (clear_sound h hb).1
  | resize i n new =>
    simp only [step] at hstep
    split at hstep
    · rename_i b hb
      obtain ⟨hclear, hempty, -⟩ := clear_sound h hb
      obtain ⟨r, hresize, heq⟩ := Option.map_eq_some_iff.mp hstep
      simp only [resize] at hresize
      split_ifs at hresize with hsame hzero
      · cases hresize
        cases heq
        rw [List.append_nil]
        exact h
      · cases hresize
        cases heq
        exact hclear
      · split at hresize
        · cases hresize
          cases heq
          exact hclear
        · split_ifs at hresize with hused
          cases hresize
          cases heq
          rw [← List.append_assoc]
          exact fill_sound hclear hempty hused
    · cases hstep
  | access i k =>
    simp only [step] at hstep
    split at hstep
    · rename_i b hb
      split_ifs at hstep with hk
      cases hstep
      have hsize := h.sized i b hb
      have hquiet : w.access b k = [] := by
        rw [access]
        cases harray : b.data.bind w.heap with
        | none => simp [hsize, harray] at hk
        | some n =>
          rw [hsize, harray, Option.getD_some] at hk
          exact if_pos hk
      rw [hquiet, List.append_nil]
      exact h
    · cases hstep
  | destroy i =>
    obtain ⟨b, hb, heq⟩ := Option.map_eq_some_iff.mp hstep
    cases heq
    obtain ⟨hclear, hempty, -⟩ := clear_sound h hb
    exact put_sound hclear (by simp [holdings, hempty]) (by simp)

/-- Whatever is done with blobs, in any order: no array is released or used that is not there, and
none is acquired again before it is released. An array that is there is that of one blob, whose size
is its length; and where there are no blobs, there are no arrays, and all that were acquired have been
released. -/
theorem blobs_own_arrays {tr : List (Event ℕ)} {w : BlobWorld}
    (h : Reaches step always start tr w) :
    .fault ∉ tr ∧
    (∀ a n, w.heap a = some n →
      (∃! i, ∃ b, w.objects i = some b ∧ b.data = some a) ∧
      (∀ i b, w.objects i = some b → b.data = some a → b.size = n) ∧
      tr.count (.acquired a) = tr.count (.released a) + 1) ∧
    ((∀ i, w.objects i = none) →
      ∀ a, w.heap a = none ∧ tr.count (.acquired a) = tr.count (.released a)) := by
  have hsound : Sound tr w := h.invariant start_sound fun _ _ _ _ _ hs _ hstep => step_sound hs hstep
  have hheld : ∀ {i a}, w.holdings.held i = some a ↔ ∃ b, w.objects i = some b ∧ b.data = some a := by
    intro i a
    exact Option.bind_eq_some_iff
  refine ⟨hsound.kept.quiet, ?_, ?_⟩
  · intro a n hn
    have hin : a ∈ w.holdings.live := by
      change (w.heap a).isSome = true
      rw [hn]
      rfl
    refine ⟨?_, ?_, hsound.kept.open_one a hin⟩
    · obtain ⟨i, hi⟩ := hsound.kept.covered a hin
      refine ⟨i, hheld.mp hi, ?_⟩
      intro j hj
      exact hsound.kept.unique j i a (hheld.mpr hj) hi
    · intro i b hb hdata
      rw [hsound.sized i b hb, hdata, Option.bind_some, hn, Option.getD_some]
  · intro hnone a
    have hempty := hsound.kept.nothing_left fun i => by simp [holdings, hnone i]
    have hout : a ∉ w.holdings.live := by simp [hempty]
    refine ⟨?_, hsound.kept.closed a hout⟩
    exact Option.not_isSome_iff_eq_none.mp hout

/-- An array is handed over twice, and released by the last blob that has it. -/
def handedOver : List Op :=
  [.construct 0, .resize 0 4 (some 100), .moveConstruct 1 0, .construct 2, .moveAssign 2 1,
    .access 2 3, .destroy 0, .destroy 1, .destroy 2]

theorem blobs_own_arrays_moved : ∃ last, execute step start handedOver = some last ∧
    last.2 = [.acquired 100, .released 100] ∧ .fault ∉ last.2 := by
  have hrun : execute step start handedOver = some (_, [.acquired 100, .released 100]) := rfl
  exact ⟨_, hrun, rfl, (blobs_own_arrays (reaches_of_run hrun)).1⟩

end BlobWorld

/-! ## Files and directories -/

structure HandleWorld where
  /-- The handles that are open. -/
  table : ℕ → Bool
  /-- The objects that are constructed and not destroyed, each with `handle_`; `none` is
  `INVALID_HANDLE_VALUE`. -/
  objects : ℕ → Option (Option ℕ)

namespace HandleWorld

def start : HandleWorld := ⟨fun _ => false, fun _ => none⟩

def put (w : HandleWorld) (i : ℕ) (o : Option (Option ℕ)) : HandleWorld :=
  { w with objects := Function.update w.objects i o }

/-- What `file::close` and `directory::close` do: `CloseHandle` or `FindClose`, if there is a handle. -/
def close (w : HandleWorld) (i : ℕ) : Option ℕ → HandleWorld × List (Event ℕ)
  | none => (w.put i (some none), [])
  | some r =>
    if w.table r then
      ({ w with table := Function.update w.table r false }.put i (some none), [.released r])
    else (w.put i (some none), [.fault])

/-- What `open_read`, `open_write` and `directory::open` do, with what the system answers. -/
def reopen (w : HandleWorld) (i : ℕ) (o answer : Option ℕ) : Option (HandleWorld × List (Event ℕ)) :=
  let c := w.close i o
  match answer with
  | none => some c
  | some r =>
    -- The system gives no handle that is open.
    if c.1.table r then none
    else some ({ c.1 with table := Function.update c.1.table r true }.put i (some (some r)),
      c.2 ++ [.acquired r])

inductive Op where
  | construct (i : ℕ)
  | reopen (i : ℕ) (answer : Option ℕ)
  | close (i : ℕ)
  /-- A call of the system with the handle of an object that is open. -/
  | use (i : ℕ)
  | destroy (i : ℕ)
  deriving DecidableEq

def step : Step HandleWorld Op (Event ℕ) := fun w op =>
  match op with
  | .construct i =>
    match w.objects i with
    | none => some (w.put i (some none), [])
    | some _ => none
  | .reopen i answer =>
    match w.objects i with
    | some o => w.reopen i o answer
    | none => none
  | .close i => (w.objects i).map fun o => w.close i o
  | .use i =>
    match w.objects i with
    | some (some r) => some (w, if w.table r then [] else [.fault])
    | _ => none
  | .destroy i => (w.objects i).map fun o => ((w.close i o).1.put i none, (w.close i o).2)

def holdings (w : HandleWorld) : Holdings ℕ ℕ where
  held := fun i => (w.objects i).join
  live := {r | w.table r = true}

variable {w t : HandleWorld} {tr ev : List (Event ℕ)} {i : ℕ} {o : Option ℕ}

theorem held_put (w : HandleWorld) (i : ℕ) (o : Option (Option ℕ)) :
    (w.put i o).holdings.held = Function.update w.holdings.held i o.join := by
  funext j
  by_cases hj : j = i
  · subst hj
    simp [holdings, put]
  · simp [holdings, put, hj]

theorem put_kept (h : Kept tr w.holdings) (vacant : w.holdings.held i = none)
    {o : Option (Option ℕ)} (ho : o.join = none) : Kept tr (w.put i o).holdings := by
  have hsame : (w.put i o).holdings = w.holdings := by
    apply Holdings.ext
    · rw [held_put, ho, ← vacant, Function.update_eq_self]
    · rfl
  rw [hsame]
  exact h

theorem close_kept (h : Kept tr w.holdings) (ho : w.objects i = some o) :
    Kept (tr ++ (w.close i o).2) (w.close i o).1.holdings ∧
      (w.close i o).1.objects i = some none := by
  have hheld : w.holdings.held i = o := by simp [holdings, ho]
  cases o with
  | none =>
    rw [close, List.append_nil]
    exact ⟨put_kept h hheld rfl, by simp [put]⟩
  | some r =>
    have hopen : w.table r = true := h.inside i r hheld
    rw [close, if_pos hopen]
    refine ⟨?_, by simp [put]⟩
    have hrelease : (({ w with table := Function.update w.table r false } : HandleWorld).put i
        (some none)).holdings = w.holdings.release i := by
      apply Holdings.ext
      · exact held_put _ i (some none)
      · ext x
        change Function.update w.table r false x = true ↔
          w.table x = true ∧ w.holdings.held i ≠ some x
        rw [hheld]
        by_cases hx : x = r
        · simp [hx]
        · simp [hx, Ne.symm hx]
    rw [hrelease]
    exact h.release hheld

theorem step_kept (h : Kept tr w.holdings) {op : Op} (hstep : step w op = some (t, ev)) :
    Kept (tr ++ ev) t.holdings := by
  cases op with
  | construct i =>
    simp only [step] at hstep
    split at hstep
    · rename_i hnone
      cases hstep
      rw [List.append_nil]
      exact put_kept h (by simp [holdings, hnone]) rfl
    · cases hstep
  | reopen i answer =>
    simp only [step] at hstep
    split at hstep
    · rename_i o ho
      obtain ⟨hclose, hempty⟩ := close_kept h ho
      simp only [reopen] at hstep
      split at hstep
      · rw [Option.some.inj hstep] at hclose
        exact hclose
      · rename_i r
        split_ifs at hstep with hused
        cases hstep
        have hacquire : (({ (w.close i o).1 with
            table := Function.update (w.close i o).1.table r true } : HandleWorld).put i
              (some (some r))).holdings = (w.close i o).1.holdings.acquire i r := by
          apply Holdings.ext
          · exact held_put _ i (some (some r))
          · ext x
            change Function.update (w.close i o).1.table r true x = true ↔
              x = r ∨ (w.close i o).1.table x = true
            by_cases hx : x = r
            · simp [hx]
            · simp [hx]
        rw [hacquire, ← List.append_assoc]
        exact hclose.acquire (by simp [holdings, hempty]) hused
    · cases hstep
  | close i =>
    obtain ⟨o, ho, heq⟩ := Option.map_eq_some_iff.mp hstep
    have hclose := (close_kept h ho).1
    rw [heq] at hclose
    exact hclose
  | use i =>
    simp only [step] at hstep
    split at hstep
    · rename_i r hr
      have hopen : w.table r = true := h.inside i r (by simp [holdings, hr])
      rw [if_pos hopen] at hstep
      cases hstep
      rw [List.append_nil]
      exact h
    · cases hstep
  | destroy i =>
    obtain ⟨o, ho, heq⟩ := Option.map_eq_some_iff.mp hstep
    cases heq
    obtain ⟨hclose, hempty⟩ := close_kept h ho
    exact put_kept hclose (by simp [holdings, hempty]) rfl

/-- Whatever is done with files and directories, in any order: no handle is closed or used that is not
open. A handle that is open belongs to one object, and where there are no objects every handle that
was opened has been closed, once for each time. -/
theorem handles_closed {tr : List (Event ℕ)} {w : HandleWorld}
    (h : Reaches step always start tr w) :
    .fault ∉ tr ∧
    (∀ r, w.table r = true → (∃! i, w.objects i = some (some r)) ∧
      tr.count (.acquired r) = tr.count (.released r) + 1) ∧
    ((∀ i, w.objects i = none) →
      ∀ r, w.table r = false ∧ tr.count (.acquired r) = tr.count (.released r)) := by
  have hstart : Kept [] start.holdings := by
    have hempty : start.holdings = ⟨fun _ => none, ∅⟩ := by simp [holdings, start]
    rw [hempty]
    exact kept_empty
  have hkept : Kept tr w.holdings :=
    h.invariant (P := fun tr w => Kept tr w.holdings) hstart fun _ _ _ _ _ hs _ hstep =>
      step_kept hs hstep
  have hheld : ∀ {i r}, w.holdings.held i = some r ↔ w.objects i = some (some r) := by
    intro i r
    exact Option.join_eq_some_iff
  refine ⟨hkept.quiet, ?_, ?_⟩
  · intro r hr
    refine ⟨?_, hkept.open_one r hr⟩
    obtain ⟨i, hi⟩ := hkept.covered r hr
    refine ⟨i, hheld.mp hi, ?_⟩
    intro j hj
    exact hkept.unique j i r (hheld.mpr hj) hi
  · intro hnone r
    have hempty := hkept.nothing_left fun i => by simp [holdings, hnone i]
    have hout : r ∉ w.holdings.live := by simp [hempty]
    exact ⟨by simpa [holdings] using hout, hkept.closed r hout⟩

/-- An object is opened twice, and the number of its first handle is given again. -/
def openedTwice : List Op :=
  [.construct 0, .reopen 0 (some 7), .use 0, .reopen 0 (some 8), .construct 1, .reopen 1 (some 7),
    .destroy 0, .destroy 1]

theorem handles_closed_twice : ∃ last, execute step start openedTwice = some last ∧
    last.2 = [.acquired 7, .released 7, .acquired 8, .acquired 7, .released 8, .released 7] ∧
    .fault ∉ last.2 := by
  have hrun : execute step start openedTwice = some (_,
    [.acquired 7, .released 7, .acquired 8, .acquired 7, .released 8, .released 7]) := rfl
  exact ⟨_, hrun, rfl, (handles_closed (reaches_of_run hrun)).1⟩

end HandleWorld

end IW4x.Gdk
