import Mathlib.Data.List.TakeWhile
import IW4x.XCurl.Local

/-!
# The parameters of a URL

`parameter` looks for a name in the query of a URL, one field after the other. A field without a `=`
has no value, and what is behind its first `=` is the value of one that has.
-/

namespace IW4x.XCurl

/-- `find` of a character, and what is before and behind it; `none` where there is none. -/
def cutAt (c : Char) (s : Str) : Option (Str × Str) :=
  match s.dropWhile (· ≠ c) with
  | [] => none
  | _ :: rest => some (s.takeWhile (· ≠ c), rest)

def fieldValue (name p : Str) : Option Str :=
  match cutAt '=' p with
  | some (key, v) => if key = name then some v else none
  | none => none

theorem cutAt_eq_some {c : Char} {s before rest : Str} (h : cutAt c s = some (before, rest)) :
    s = before ++ c :: rest ∧ c ∉ before := by
  unfold cutAt at h
  split at h
  · cases h
  · rename_i x tail hdrop
    cases h
    have hx : x = c := by
      have hne : s.dropWhile (· ≠ c) ≠ [] := by
        rw [hdrop]
        exact List.cons_ne_nil _ _
      have hhead := List.head_dropWhile_not (· ≠ c) hne
      simp only [hdrop, List.head_cons] at hhead
      simpa using hhead
    constructor
    · conv_lhs => rw [← List.takeWhile_append_dropWhile (p := (· ≠ c)) (l := s), hdrop, hx]
    · intro hmem
      simpa using List.mem_takeWhile_imp hmem

theorem cutAt_eq_none {c : Char} {s : Str} (h : cutAt c s = none) : c ∉ s := by
  unfold cutAt at h
  split at h
  · rename_i hdrop
    intro hmem
    simpa using List.dropWhile_eq_nil_iff.mp hdrop c hmem
  · cases h

theorem cutAt_append {c : Char} {before : Str} (h : c ∉ before) (rest : Str) :
    cutAt c (before ++ c :: rest) = some (before, rest) := by
  have hall : ∀ x ∈ before, (decide (x ≠ c)) = true := by
    intro x hx
    exact decide_eq_true fun heq => h (heq ▸ hx)
  have hstop : (c :: rest).dropWhile (· ≠ c) = c :: rest := List.dropWhile_cons_of_neg (by simp)
  have hnone : (c :: rest).takeWhile (· ≠ c) = [] := List.takeWhile_cons_of_neg (by simp)
  rw [cutAt, List.dropWhile_append_of_pos hall, hstop, List.takeWhile_append_of_pos hall, hnone,
    List.append_nil]

theorem cutAt_lt {c : Char} {s before rest : Str} (h : cutAt c s = some (before, rest)) :
    rest.length < s.length := by
  rw [(cutAt_eq_some h).1, List.length_append, List.length_cons]
  omega

/-- The loop of `parameter`, on what is left of the query. -/
def parameterLoop (name url : Str) : Str :=
  if url = [] then []
  else
    match _ : cutAt '&' url with
    | some (p, rest) =>
      match fieldValue name p with
      | some v => v
      | none => parameterLoop name rest
    | none => (fieldValue name url).getD []
termination_by url.length
decreasing_by exact cutAt_lt ‹_›

def parameter (url name : Str) : Str :=
  match cutAt '?' url with
  | none => []
  | some (_, query) => parameterLoop name query

/-- The loop goes through the fields between the separators. -/
theorem parameterLoop_eq (name url : Str) :
    parameterLoop name url = ((url.splitOn '&').findSome? (fieldValue name)).getD [] := by
  induction url using (measure List.length).wf.induction with
  | _ url ih =>
    rw [parameterLoop]
    split_ifs with hnil
    · subst hnil
      rfl
    · split
      · rename_i p rest hcut
        obtain ⟨hurl, hfree⟩ := cutAt_eq_some hcut
        have hrest := ih rest (cutAt_lt hcut)
        rw [hurl, List.splitOn_append_cons_self_of_not_mem hfree, List.findSome?_cons]
        cases fieldValue name p with
        | none => exact hrest
        | some v => rfl
      · rename_i hcut
        rw [List.splitOn_eq_singleton (cutAt_eq_none hcut), List.findSome?_cons]
        cases fieldValue name url with
        | none => rfl
        | some v => rfl

def field (kv : Str × Str) : Str := kv.1 ++ '=' :: kv.2

theorem fieldValue_field {kv : Str × Str} (h : '=' ∉ kv.1) (name : Str) :
    fieldValue name (field kv) = if name == kv.1 then some kv.2 else none := by
  have hcut : cutAt '=' (field kv) = some kv := cutAt_append h kv.2
  rw [fieldValue, hcut]
  by_cases hname : name = kv.1
  · simp [hname]
  · simp [hname, Ne.symm hname]

theorem lookup_eq {pairs : List (Str × Str)} (h : ∀ kv ∈ pairs, '=' ∉ kv.1) (name : Str) :
    (pairs.map field).findSome? (fieldValue name) = pairs.lookup name := by
  induction pairs with
  | nil => rfl
  | cons kv pairs ih =>
    obtain ⟨k, v⟩ := kv
    have hrest := ih fun kv hkv => h kv (List.mem_cons_of_mem _ hkv)
    rw [List.map_cons, List.findSome?_cons, fieldValue_field (h _ List.mem_cons_self), List.lookup_cons]
    cases hname : name == k with
    | true => simp
    | false => simpa using hrest

/-- A URL without a query has no parameters. Whatever fields a query is put together from, the answer
is the value of the first of them that has the name, and nothing where none has it; and where the
fields are names with values, it is what the list of them says. -/
theorem parameter_reads (name base : Str) (hbase : '?' ∉ base) :
    parameter base name = [] ∧
    (∀ fields : List Str, fields ≠ [] → (∀ p ∈ fields, '&' ∉ p) →
      parameter (base ++ '?' :: ['&'].intercalate fields) name =
        (fields.findSome? (fieldValue name)).getD []) ∧
    ∀ pairs : List (Str × Str), (∀ kv ∈ pairs, '=' ∉ kv.1 ∧ '&' ∉ kv.1 ∧ '&' ∉ kv.2) →
      parameter (base ++ '?' :: ['&'].intercalate (pairs.map field)) name =
        (pairs.lookup name).getD [] := by
  have hfields : ∀ fields : List Str, fields ≠ [] → (∀ p ∈ fields, '&' ∉ p) →
      parameter (base ++ '?' :: ['&'].intercalate fields) name =
        (fields.findSome? (fieldValue name)).getD [] := by
    intro fields hne hfree
    rw [parameter, cutAt_append hbase]
    dsimp only
    rw [parameterLoop_eq, List.splitOn_intercalate '&' hfree hne]
  refine ⟨?_, hfields, ?_⟩
  · cases hcut : cutAt '?' base with
    | none => rw [parameter, hcut]
    | some parts =>
      have hmark := (cutAt_eq_some hcut).1
      exact absurd (hmark ▸ by simp) hbase
  · intro pairs hpairs
    cases hpairs' : pairs with
    | nil => simp [parameter, cutAt_append hbase, parameterLoop]
    | cons kv rest =>
      rw [← hpairs', hfields]
      · rw [lookup_eq fun kv hkv => (hpairs kv hkv).1]
      · simp [hpairs']
      · intro p hp
        obtain ⟨kv, hkv, rfl⟩ := List.mem_map.mp hp
        have hsep := (hpairs kv hkv).2
        simpa [field] using hsep

theorem parameter_reads_setting :
    parameter ("x/validate".toList ++ '?' ::
      ['&'].intercalate ([("setting".toList, "all".toList), ("t".toList, "a=b".toList)].map field))
        "t".toList = "a=b".toList :=
  (parameter_reads "t".toList "x/validate".toList (by decide)).2.2 _ (by decide)

end IW4x.XCurl
