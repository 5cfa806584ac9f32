import Mathlib.Data.List.FinRange
import IW4x.Gdk.Types

/-!
# Tables of handlers

A table has eight slots, and the token of a registration is the number of its slot, from 1 on. A slot
that is not used holds nothing that is read.
-/

namespace IW4x.Gdk

/-- `handler_table<H>`. -/
structure HandlerTable (H : Type) where
  slots : Fin 8 → Option H

namespace HandlerTable

variable {H : Type}

def empty : HandlerTable H := ⟨fun _ => none⟩

/-- The first slot that is not used. -/
def free (t : HandlerTable H) : Option (Fin 8) := (List.finRange 8).find? fun i => (t.slots i).isNone

/-- `add`, with the token. The source answers 0 where there is no room. -/
def add (t : HandlerTable H) (h : H) : Option (ℕ × HandlerTable H) :=
  t.free.map fun i => (i.val + 1, ⟨Function.update t.slots i (some h)⟩)

def slotOf (token : ℕ) : Option (Fin 8) :=
  if h : 0 < token ∧ token ≤ 8 then some ⟨token - 1, by omega⟩ else none

def find (t : HandlerTable H) (token : ℕ) : Option H := (slotOf token).bind t.slots

def remove (t : HandlerTable H) (token : ℕ) : Option (HandlerTable H) :=
  match slotOf token with
  | none => none
  | some i => if (t.slots i).isSome then some ⟨Function.update t.slots i none⟩ else none

/-- `live`, into an array that has room for all. -/
def live (t : HandlerTable H) : List H := (List.finRange 8).filterMap t.slots

theorem mem_live {t : HandlerTable H} {h : H} : h ∈ t.live ↔ ∃ i, t.slots i = some h := by
  simp [live]

theorem add_eq_some {t u : HandlerTable H} {h : H} {token : ℕ} (hadd : t.add h = some (token, u)) :
    ∃ i : Fin 8, t.slots i = none ∧ token = i.val + 1 ∧
      u.slots = Function.update t.slots i (some h) := by
  obtain ⟨i, hfree, heq⟩ := Option.map_eq_some_iff.mp hadd
  obtain ⟨rfl, rfl⟩ := Prod.mk.inj heq
  exact ⟨i, by simpa using List.find?_some hfree, rfl, rfl⟩

/-- There is no room for another handler. -/
def Full (t : HandlerTable H) : Prop := ∀ i, (t.slots i).isSome = true

theorem add_eq_none {t : HandlerTable H} {h : H} : t.add h = none ↔ t.Full := by
  simp [add, free, Full, List.find?_eq_none, Option.isSome_iff_ne_none]

theorem add_ne {t u : HandlerTable H} {h : H} {token : ℕ} (hadd : t.add h = some (token, u)) :
    u ≠ t := by
  obtain ⟨i, hfree, -, hslots⟩ := add_eq_some hadd
  rintro rfl
  rw [hslots, Function.update_self] at hfree
  cases hfree

theorem remove_eq_some {t u : HandlerTable H} {token : ℕ} (hremove : t.remove token = some u) :
    ∃ i h, slotOf token = some i ∧ t.slots i = some h ∧ t.find token = some h ∧
      u.slots = Function.update t.slots i none := by
  unfold remove at hremove
  split at hremove
  · cases hremove
  · rename_i i hslot
    split_ifs at hremove with hsome
    obtain ⟨h, hh⟩ := Option.isSome_iff_exists.mp hsome
    obtain rfl := Option.some.inj hremove
    exact ⟨i, h, hslot, hh, by rw [find, hslot, Option.bind_some, hh], rfl⟩

end HandlerTable

end IW4x.Gdk
