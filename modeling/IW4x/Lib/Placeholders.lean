import Mathlib.Tactic

/-!
# Placeholders

A pattern in a text stands for the place of an argument. The places are the leftmost occurrences that
do not overlap, and only the text is searched for them, never what is put in.
-/

namespace Placeholders

variable {α : Type*} {p l pre post r : List α} {args : List (List α)}

/-- No occurrence of the pattern begins before this one. -/
structure Leftmost (p l pre post : List α) : Prop where
  here : l = pre ++ p ++ post
  first : ∀ pre' post', l = pre' ++ p ++ post' → pre.length ≤ pre'.length

/-- The text with its places filled, in order. Where the arguments end before the places do, the
places stay; where the places end first, what is left of the arguments comes last. -/
inductive Filled (p : List α) : List α → List (List α) → List α → Prop
  | stays (l : List α) : Filled p l [] l
  | place {l pre post a r : List α} {args : List (List α)} (h : Leftmost p l pre post)
      (rest : Filled p post args r) : Filled p l (a :: args) (pre ++ a ++ r)
  | extra {l : List α} (args : List (List α)) (h : ¬ p <:+: l) : Filled p l args (l ++ args.flatten)

section

variable [DecidableEq α]

/-- The text before the first occurrence of the pattern, and the text after it. -/
def cut (p : List α) : List α → Option (List α × List α)
  | [] => if p = [] then some ([], []) else none
  | x :: l =>
    if p <+: x :: l then some ([], (x :: l).drop p.length)
    else (cut p l).map fun c => (x :: c.1, c.2)

/-- The text with its places filled. -/
def fill (p : List α) : List α → List (List α) → List α
  | l, [] => l
  | l, a :: args =>
    match cut p l with
    | some (pre, post) => pre ++ a ++ fill p post args
    | none => l ++ (a :: args).flatten

end

/-! ## Occurrences -/

theorem Leftmost.unique {pre' post' : List α} (h : Leftmost p l pre post)
    (h' : Leftmost p l pre' post') : pre = pre' ∧ post = post' := by
  have hlength : pre.length = pre'.length :=
    le_antisymm (h.first pre' post' h'.here) (h'.first pre post h.here)
  have heq := h.here.symm.trans h'.here
  rw [List.append_assoc, List.append_assoc] at heq
  obtain ⟨hpre, hpost⟩ := List.append_inj heq hlength
  exact ⟨hpre, (List.append_inj hpost rfl).2⟩

theorem Leftmost.cons {x : α} (h : Leftmost p l pre post) (hx : ¬ p <+: x :: l) :
    Leftmost p (x :: l) (x :: pre) post := by
  refine ⟨by simp [h.here], ?_⟩
  intro pre' post' heq
  cases pre' with
  | nil => exact absurd ⟨post', by simpa using heq.symm⟩ hx
  | cons y pre' =>
    have htail : l = pre' ++ p ++ post' := by simpa using congrArg List.tail heq
    simpa using h.first pre' post' htail

variable [DecidableEq α]

theorem cut_leftmost (h : cut p l = some (pre, post)) : Leftmost p l pre post := by
  induction l generalizing pre with
  | nil =>
    simp only [cut] at h
    split_ifs at h with hp
    obtain ⟨rfl, rfl⟩ := Prod.mk.inj (Option.some.inj h)
    exact ⟨by simp [hp], fun _ _ _ => Nat.zero_le _⟩
  | cons x l ih =>
    simp only [cut] at h
    split_ifs at h with hp
    · obtain ⟨rfl, rfl⟩ := Prod.mk.inj (Option.some.inj h)
      exact ⟨by simpa using List.prefix_iff_eq_append.mp hp |>.symm, fun _ _ _ => Nat.zero_le _⟩
    · obtain ⟨c, hc, heq⟩ := Option.map_eq_some_iff.mp h
      obtain ⟨rfl, rfl⟩ := Prod.mk.inj heq
      exact (ih hc).cons hp

theorem cut_eq_none (h : cut p l = none) : ¬ p <:+: l := by
  induction l with
  | nil =>
    simp only [cut] at h
    split_ifs at h with hp
    simpa using hp
  | cons x l ih =>
    simp only [cut] at h
    split_ifs at h with hp
    rw [List.infix_cons_iff]
    rintro (hstarts | hinside)
    · exact hp hstarts
    · exact ih (by simpa using h) hinside

/-! ## Filling -/

theorem fill_filled (p : List α) (args : List (List α)) (l : List α) :
    Filled p l args (fill p l args) := by
  induction args generalizing l with
  | nil => exact .stays l
  | cons a args ih =>
    simp only [fill]
    split
    · next pre post hcut => exact .place (cut_leftmost hcut) (ih post)
    · next hcut => exact .extra (a :: args) (cut_eq_none hcut)

theorem Filled.eq_fill (h : Filled p l args r) : r = fill p l args := by
  induction h with
  | stays l => rfl
  | @place l pre post a r args h _ ih =>
    simp only [fill]
    split
    · next pre' post' hcut =>
      obtain ⟨rfl, rfl⟩ := h.unique (cut_leftmost hcut)
      rw [ih]
    · next hcut => exact absurd ⟨pre, post, h.here.symm⟩ (cut_eq_none hcut)
  | @extra l args h =>
    cases args with
    | nil => simp [fill]
    | cons a args =>
      simp only [fill]
      split
      · next pre post hcut => exact absurd ⟨pre, post, (cut_leftmost hcut).here.symm⟩ h
      · rfl

end Placeholders
