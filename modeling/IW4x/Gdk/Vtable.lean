import IW4x.Lib.Loops
import IW4x.Gdk.TextWriter

/-!
# Interface tables

The table of an interface is made while the program is compiled, from the members of a type and the
slots that they are annotated with. One search complains about what is wrong with the annotations,
another finds for each slot the function that stands in it. Where there is no complaint they agree.
-/

namespace IW4x.Gdk.Vtable

open Loops Hex

/-- `sizeof (void*)`. -/
def word : Unsigned 8 := 8

def maxSlot : Unsigned 8 := 0x200

def slotCount : Unsigned 8 := maxSlot / word

def firstSlot : Unsigned 8 := 3 * word

/-- What reflection tells of a member. -/
structure Member (F : Type*) where
  /-- The member itself. -/
  function : F
  isFunction : Bool
  isStatic : Bool
  /-- The offsets of its annotations of type `slot`. -/
  slots : List (Unsigned 8)

structure Interface (F : Type*) where
  label : Bytes
  members : List (Member F)
  /-- Empty where the type has none. -/
  declined : List (Unsigned 8)
  /-- Empty where the type has none. -/
  declinedFalse : List (Unsigned 8)

/-- What a slot of a table points to. -/
inductive Entry (F : Type*) where
  | queryInterface
  | addRef
  | release
  | member (f : F)
  | declining (o : Unsigned 8)
  | decliningFalse (o : Unsigned 8)
  | unrecovered (o : Unsigned 8)
  deriving DecidableEq

/-- `complain`: the report with one more complaint. -/
def complain (label r : Bytes) (o : Unsigned 8) (what : Bytes) : Except Contract Bytes := do
  let r := if r.isEmpty then r else r ++ ascii ", "
  match ← Integers.toHexCharsMinimal 16 o .upper with
  | .tooLarge => .error .assertion
  | .written h => return r ++ label ++ ascii ": slot 0x" ++ bytesOf h ++ ascii " " ++ what

/-- The complaint about a member that is not a static member function. -/
def complainOther (label r : Bytes) : Bytes :=
  let r := if r.isEmpty then r else r ++ ascii ", "
  r ++ label ++ ascii ": a slot is claimed by something that is not a static member function"

/-- A call of `complain` under a condition. -/
def complainIf (p : Bool) (label r : Bytes) (o : Unsigned 8) (what : Bytes) :
    Except Contract Bytes :=
  if p then complain label r o what else .ok r

def placed (label r : Bytes) (o : Unsigned 8) : Except Contract (Bytes × Bool) := do
  if o % word ≠ 0 then
    return (← complain label r o (ascii "is not a whole number of words"), false)
  else if o < firstSlot then
    return (← complain label r o (ascii "lands on IUnknown"), false)
  else if maxSlot ≤ o then
    return (← complain label r o (ascii "is past the end of the table"), false)
  else
    return (r, true)

namespace Interface

variable {F : Type*} (I : Interface F)

def isDeclined (o : Unsigned 8) : Bool := I.declined.any (· = o)

def isDeclinedFalse (o : Unsigned 8) : Bool := I.declinedFalse.any (· = o)

def claimant (o : Unsigned 8) : Option (Member F) :=
  I.members.find? fun m => m.slots.any (· = o)

def entryOf (O : Unsigned 8) : Entry F :=
  let o := O * word
  if o = 0 then .queryInterface
  else if o = word then .addRef
  else if o = 2 * word then .release
  else
    match I.claimant o with
    | some m => .member m.function
    | none =>
      if I.isDeclined o then .declining o
      else if I.isDeclinedFalse o then .decliningFalse o
      else .unrecovered o

/-- The body of the loop over the annotations of a member: the report, and the offsets claimed. -/
def claim (s : Bytes × List (Unsigned 8)) (o : Unsigned 8) :
    Except Contract (Bytes × List (Unsigned 8)) := do
  let (r, p) ← placed I.label s.1 o
  if !p then return (r, s.2)
  let twice := s.2.any (· = o)
  let r ← complainIf twice I.label r o (ascii "is claimed twice")
  let claimed := if twice then s.2 else s.2 ++ [o]
  let r ← complainIf (I.isDeclined o || I.isDeclinedFalse o) I.label r o
    (ascii "is both implemented and declined")
  return (r, claimed)

/-- The body of the loop over the members. -/
def claims (s : Bytes × List (Unsigned 8)) (m : Member F) :
    Except Contract (Bytes × List (Unsigned 8)) :=
  if m.slots.isEmpty then .ok s
  else if !m.isFunction || !m.isStatic then
    .ok (complainOther I.label s.1, s.2)
  else m.slots.foldlM I.claim s

/-- The body of the loop over `declined`. -/
def declines (r : Bytes) (o : Unsigned 8) : Except Contract Bytes := do
  let (r, _) ← placed I.label r o
  return r

/-- The body of the loop over `declined_false`. -/
def declinesFalse (r : Bytes) (o : Unsigned 8) : Except Contract Bytes := do
  let (r, p) ← placed I.label r o
  complainIf (p && I.isDeclined o) I.label r o (ascii "is declined twice")

def malformed : Except Contract Bytes := do
  let (r, _) ← I.members.foldlM I.claims ([], [])
  let r ← I.declined.foldlM I.declines r
  I.declinedFalse.foldlM I.declinesFalse r

/-- The entries of an `interface_table`. -/
def entries : List (Entry F) := (List.range slotCount.toNat).map fun O => I.entryOf (BitVec.ofNat _ O)

/-- `slot_of`; `none` is the null pointer. -/
def slotOf (o : Unsigned 8) : Except Contract (Option (Entry F)) :=
  if o < maxSlot ∧ o % word = 0 then
    match I.entries[(o / word).toNat]? with
    | some e => .ok (some e)
    | none => .error .range
  else .ok none

end Interface

/-! ## What a description has to be -/

/-- A whole word behind `IUnknown` and inside the table. -/
def Placeable (o : Unsigned 8) : Prop := o.toNat % 8 = 0 ∧ 0x18 ≤ o.toNat ∧ o.toNat < 0x200

/-- A description from which a table can be made. -/
structure WellFormed {F : Type*} (I : Interface F) : Prop where
  functions : ∀ m ∈ I.members, m.slots ≠ [] → m.isFunction = true ∧ m.isStatic = true
  claimed : ∀ m ∈ I.members, ∀ o ∈ m.slots, Placeable o
  /-- No offset is claimed twice, be it by one member. -/
  once : (I.members.flatMap Member.slots).Nodup
  undeclined : ∀ m ∈ I.members, ∀ o ∈ m.slots, o ∉ I.declined ∧ o ∉ I.declinedFalse
  declined : ∀ o ∈ I.declined, Placeable o
  declinedFalse : ∀ o ∈ I.declinedFalse, Placeable o
  disjoint : ∀ o ∈ I.declinedFalse, o ∉ I.declined

/-! ## Complaints -/

theorem complain_ok (label r : Bytes) (o : Unsigned 8) (what : Bytes) :
    ∃ r', complain label r o what = .ok r' ∧ r' ≠ [] := by
  have hlength := (Integers.minimalLength_spec (by norm_num) o).2.1
  have hroom : ¬ 16 < Integers.minimalLength o := by omega
  have htext : ascii ": slot 0x" ≠ [] := by decide
  simp only [complain]
  rw [Integers.toHexCharsMinimal_eq (by norm_num), if_neg hroom]
  refine ⟨_, rfl, ?_⟩
  simp [htext]

theorem complainOther_ne (label r : Bytes) : complainOther label r ≠ [] := by
  have htext :
      ascii ": a slot is claimed by something that is not a static member function" ≠ [] := by decide
  simp [complainOther, htext]

theorem complainIf_ok (p : Bool) (label r : Bytes) (o : Unsigned 8) (what : Bytes) :
    ∃ r', complainIf p label r o what = .ok r' ∧ (r' = [] ↔ r = [] ∧ p = false) := by
  cases p with
  | false => exact ⟨r, rfl, by simp⟩
  | true =>
    obtain ⟨r', hok, hne⟩ := complain_ok label r o what
    exact ⟨r', hok, by simp [hne]⟩

theorem placeable_iff (o : Unsigned 8) : Placeable o ↔
    ¬ o % word ≠ 0 ∧ ¬ o < firstSlot ∧ ¬ maxSlot ≤ o := by
  have hword : o % word = 0 ↔ o.toNat % 8 = 0 := by
    rw [← BitVec.toNat_inj, BitVec.toNat_umod]
    rfl
  have hlow : o < firstSlot ↔ o.toNat < 0x18 := by
    rw [BitVec.lt_def]
    rfl
  have hhigh : maxSlot ≤ o ↔ 0x200 ≤ o.toNat := by
    rw [BitVec.le_def]
    rfl
  rw [Placeable, ne_eq, not_not, hword, hlow, hhigh, not_lt, not_le]

theorem placed_ok (label r : Bytes) (o : Unsigned 8) :
    ∃ r' p, placed label r o = .ok (r', p) ∧ (p = true ↔ Placeable o) ∧
      (r' = [] ↔ r = [] ∧ Placeable o) := by
  have hcomplain (what : Bytes) (hplace : ¬ Placeable o) : ∃ r' p,
      (do return (← complain label r o what, false)) = Except.ok (r', p) ∧
        (p = true ↔ Placeable o) ∧ (r' = [] ↔ r = [] ∧ Placeable o) := by
    obtain ⟨r', hok, hne⟩ := complain_ok label r o what
    refine ⟨r', false, ?_, by simp [hplace], by simp [hplace, hne]⟩
    rw [hok]
    rfl
  have hiff := placeable_iff o
  rw [placed]
  split_ifs with hword hlow hhigh
  · exact hcomplain _ fun hplace => (hiff.mp hplace).1 hword
  · exact hcomplain _ fun hplace => (hiff.mp hplace).2.1 hlow
  · exact hcomplain _ fun hplace => (hiff.mp hplace).2.2 hhigh
  · have hplace : Placeable o := hiff.mpr ⟨hword, hlow, hhigh⟩
    exact ⟨r, true, rfl, by simp [hplace], by simp [hplace]⟩

variable {F : Type*} {I : Interface F}

namespace Interface

theorem isDeclined_iff {o : Unsigned 8} : I.isDeclined o = true ↔ o ∈ I.declined := by
  simp [isDeclined]

theorem isDeclinedFalse_iff {o : Unsigned 8} :
    I.isDeclinedFalse o = true ↔ o ∈ I.declinedFalse := by
  simp [isDeclinedFalse]

end Interface

/-- What each claim has to be by itself. -/
def Sound (I : Interface F) (o : Unsigned 8) : Prop :=
  Placeable o ∧ o ∉ I.declined ∧ o ∉ I.declinedFalse

theorem claim_ok (s : Bytes × List (Unsigned 8)) (o : Unsigned 8) :
    ∃ s', I.claim s o = .ok s' ∧ (s'.1 = [] ↔ s.1 = [] ∧ Sound I o ∧ o ∉ s.2) ∧
      (s'.1 = [] → s'.2 = s.2 ++ [o]) := by
  obtain ⟨r₁, p, hplaced, hp, hr₁⟩ := placed_ok I.label s.1 o
  rw [Interface.claim, hplaced]
  cases p with
  | false =>
    have hplace : ¬ Placeable o := by simpa using hp
    refine ⟨(r₁, s.2), rfl, ?_⟩
    simp [Sound, hplace, hr₁]
  | true =>
    have hplace : Placeable o := hp.mp rfl
    obtain ⟨r₂, htwice, hr₂⟩ :=
      complainIf_ok (s.2.any (· = o)) I.label r₁ o (ascii "is claimed twice")
    obtain ⟨r₃, hboth, hr₃⟩ := complainIf_ok (I.isDeclined o || I.isDeclinedFalse o) I.label r₂ o
      (ascii "is both implemented and declined")
    have hnew : s.2.any (· = o) = false ↔ o ∉ s.2 := by
      rw [Bool.eq_false_iff, ne_eq, List.any_eq_true]
      simp
    have hundeclined : (I.isDeclined o || I.isDeclinedFalse o) = false ↔
        o ∉ I.declined ∧ o ∉ I.declinedFalse := by
      simp [← Interface.isDeclined_iff, ← Interface.isDeclinedFalse_iff]
    refine ⟨(r₃, if s.2.any (· = o) then s.2 else s.2 ++ [o]), ?_, ?_, ?_⟩
    · simp only [bind, Except.bind, pure, Except.pure, Bool.not_true, Bool.false_eq_true, if_false,
        htwice, hboth]
    · rw [hr₃, hr₂, hr₁, hnew, hundeclined, Sound]
      constructor
      · rintro ⟨⟨⟨hnone, _⟩, hfresh⟩, hkept⟩
        exact ⟨hnone, ⟨hplace, hkept⟩, hfresh⟩
      · rintro ⟨hnone, ⟨_, hkept⟩, hfresh⟩
        exact ⟨⟨⟨hnone, hplace⟩, hfresh⟩, hkept⟩
    · intro hnone
      rw [hnew.mpr (hnew.mp (hr₂.mp (hr₃.mp hnone).1).2)]
      rfl

/-- What is known after the claims: there is no complaint just if nothing was wrong so far, and then
the claims are kept. -/
structure Judged (I : Interface F) (ok : Prop) (cs : List (Unsigned 8))
    (s : Bytes × List (Unsigned 8)) : Prop where
  report : s.1 = [] ↔ ok ∧ (∀ o ∈ cs, Sound I o) ∧ cs.Nodup
  claimed : s.1 = [] → s.2 = cs

theorem claim_judged {ok : Prop} {cs : List (Unsigned 8)} {s : Bytes × List (Unsigned 8)}
    (h : Judged I ok cs s) (o : Unsigned 8) :
    ∃ s', I.claim s o = .ok s' ∧ Judged I ok (cs ++ [o]) s' := by
  obtain ⟨s', hok, hreport, hclaimed⟩ := claim_ok (I := I) s o
  refine ⟨s', hok, ?_, ?_⟩
  · rw [hreport, List.nodup_append]
    constructor
    · rintro ⟨hnone, hsound, hnew⟩
      rw [h.claimed hnone] at hnew
      obtain ⟨hall, hsounds, hnodup⟩ := h.report.mp hnone
      refine ⟨hall, ?_, hnodup, List.nodup_singleton o, ?_⟩
      · intro c hc
        rcases List.mem_append.mp hc with hc | hc
        · exact hsounds c hc
        · rwa [List.mem_singleton.mp hc]
      · intro c hc d hd
        rw [List.mem_singleton.mp hd]
        rintro rfl
        exact hnew hc
    · rintro ⟨hall, hsounds, hnodup, -, hnew⟩
      have hnone := h.report.mpr ⟨hall, fun c hc => hsounds c (List.mem_append_left _ hc), hnodup⟩
      refine ⟨hnone, hsounds o (by simp), ?_⟩
      rw [h.claimed hnone]
      intro ho
      exact hnew o ho o (List.mem_singleton_self o) rfl
  · intro hnone
    rw [hclaimed hnone, h.claimed (hreport.mp hnone).1]

/-- Only functions are asked what they claim. -/
theorem claims_judged {ok : Prop} {cs : List (Unsigned 8)} {s : Bytes × List (Unsigned 8)}
    (h : Judged I ok cs s) (m : Member F) :
    ∃ s', I.claims s m = .ok s' ∧
      Judged I (ok ∧ (m.slots ≠ [] → m.isFunction = true ∧ m.isStatic = true))
        (cs ++ m.slots) s' := by
  rw [Interface.claims]
  split_ifs with hempty hother
  · have hslots : m.slots = [] := List.isEmpty_iff.mp hempty
    refine ⟨s, rfl, ?_⟩
    simpa [hslots] using h
  · have hne := complainOther_ne I.label s.1
    have hslots : m.slots ≠ [] := fun hslots => hempty (List.isEmpty_iff.mpr hslots)
    have hfails : ¬ (m.isFunction = true ∧ m.isStatic = true) := by
      simpa [imp_iff_not_or] using hother
    exact ⟨_, rfl, by simp [hne, hslots, hfails], fun hnone => absurd hnone hne⟩
  · have hfunction : m.isFunction = true ∧ m.isStatic = true := by simpa using hother
    obtain ⟨s', hloop, hjudged⟩ := foldlM_ok (P := fun as s => Judged I ok (cs ++ as) s)
      (by simpa using h) (fun as o s hs => by simpa using claim_judged hs o) m.slots
    refine ⟨s', hloop, ?_⟩
    simpa [hfunction] using hjudged

theorem members_judged (I : Interface F) : ∃ s, I.members.foldlM I.claims ([], []) = .ok s ∧
    Judged I (∀ m ∈ I.members, m.slots ≠ [] → m.isFunction = true ∧ m.isStatic = true)
      (I.members.flatMap Member.slots) s := by
  apply foldlM_ok (P := fun ms s => Judged I
    (∀ m ∈ ms, m.slots ≠ [] → m.isFunction = true ∧ m.isStatic = true)
      (ms.flatMap Member.slots) s)
  · exact ⟨by simp, fun _ => rfl⟩
  · intro ms m s hs
    obtain ⟨s', hclaims, hjudged⟩ := claims_judged hs m
    refine ⟨s', hclaims, ?_⟩
    rw [List.flatMap_append, List.flatMap_singleton, List.forall_mem_append,
      List.forall_mem_singleton]
    exact hjudged

theorem declined_ok (I : Interface F) (r : Bytes) : ∃ r', I.declined.foldlM I.declines r = .ok r' ∧
    (r' = [] ↔ r = [] ∧ ∀ o ∈ I.declined, Placeable o) := by
  apply foldlM_ok (P := fun os r' => r' = [] ↔ r = [] ∧ ∀ o ∈ os, Placeable o)
  · simp
  · intro os o r₁ hr₁
    obtain ⟨r₂, p, hplaced, -, hr₂⟩ := placed_ok I.label r₁ o
    refine ⟨r₂, ?_, ?_⟩
    · rw [Interface.declines, hplaced]
      rfl
    · rw [hr₂, hr₁, List.forall_mem_append, List.forall_mem_singleton, and_assoc]

theorem declinedFalse_ok (I : Interface F) (r : Bytes) :
    ∃ r', I.declinedFalse.foldlM I.declinesFalse r = .ok r' ∧
      (r' = [] ↔ r = [] ∧ ∀ o ∈ I.declinedFalse, Placeable o ∧ o ∉ I.declined) := by
  apply foldlM_ok (P := fun os r' => r' = [] ↔ r = [] ∧ ∀ o ∈ os, Placeable o ∧ o ∉ I.declined)
  · simp
  · intro os o r₁ hr₁
    obtain ⟨r₂, p, hplaced, hp, hr₂⟩ := placed_ok I.label r₁ o
    obtain ⟨r₃, htwice, hr₃⟩ :=
      complainIf_ok (p && I.isDeclined o) I.label r₂ o (ascii "is declined twice")
    refine ⟨r₃, ?_, ?_⟩
    · rw [Interface.declinesFalse, hplaced]
      exact htwice
    · rw [hr₃, hr₂, hr₁, List.forall_mem_append, List.forall_mem_singleton,
        ← Interface.isDeclined_iff, ← hp]
      cases p <;> cases I.isDeclined o <;> simp

/-- There is no complaint just if a table can be made. -/
theorem malformed_ok (I : Interface F) :
    ∃ r, I.malformed = .ok r ∧ (r = [] ↔ WellFormed I) := by
  obtain ⟨s, hmembers, hjudged⟩ := members_judged I
  obtain ⟨r₁, hdeclined, hr₁⟩ := declined_ok I s.1
  obtain ⟨r₂, hfalse, hr₂⟩ := declinedFalse_ok I r₁
  refine ⟨r₂, ?_, ?_⟩
  · rw [Interface.malformed, hmembers]
    change (do
      let r ← I.declined.foldlM I.declines s.1
      I.declinedFalse.foldlM I.declinesFalse r) = _
    rw [hdeclined]
    exact hfalse
  · have hclaims (P : Unsigned 8 → Prop) : (∀ o ∈ I.members.flatMap Member.slots, P o) ↔
        ∀ m ∈ I.members, ∀ o ∈ m.slots, P o := by
      simp only [List.mem_flatMap]
      grind
    rw [hr₂, hr₁, hjudged.report, hclaims]
    constructor
    · rintro ⟨⟨⟨hfunctions, hsound, honce⟩, hdeclined⟩, hfalse⟩
      exact ⟨hfunctions, fun m hm o ho => (hsound m hm o ho).1, honce,
        fun m hm o ho => (hsound m hm o ho).2, hdeclined, fun o ho => (hfalse o ho).1,
        fun o ho => (hfalse o ho).2⟩
    · intro h
      exact ⟨⟨⟨h.functions, fun m hm o ho => ⟨h.claimed m hm o ho, h.undeclined m hm o ho⟩, h.once⟩,
        h.declined⟩, fun o ho => ⟨h.declinedFalse o ho, h.disjoint o ho⟩⟩

example : (⟨ascii "Store", [⟨0, true, true, [0x18, 0x20]⟩, ⟨1, true, true, [0x20]⟩], [0x1FC], []⟩ :
    Interface ℕ).malformed = .ok (ascii
      "Store: slot 0x20 is claimed twice, Store: slot 0x1FC is not a whole number of words") := by
  rfl

/-! ## The table -/

theorem claimant_of_mem (h : WellFormed I) {m : Member F} (hm : m ∈ I.members) {o : Unsigned 8}
    (ho : o ∈ m.slots) : I.claimant o = some m := by
  cases hfind : I.claimant o with
  | none =>
    have hnone := List.find?_eq_none.mp hfind m hm
    simp [ho] at hnone
  | some m' =>
    have hm' : m' ∈ I.members := List.mem_of_find?_eq_some hfind
    have ho' : o ∈ m'.slots := by simpa using List.find?_some hfind
    have hpairs := (List.nodup_flatMap.mp h.once).2
    by_contra hne
    have hsame : m ≠ m' := fun heq => hne (congrArg some heq.symm)
    have : Std.Symm (Function.onFun List.Disjoint (Member.slots (F := F))) :=
      ⟨fun _ _ hdisjoint => hdisjoint.symm⟩
    exact hpairs.forall hm hm' hsame ho ho'

theorem claimant_of_not_mem {o : Unsigned 8} (h : ∀ m ∈ I.members, o ∉ m.slots) :
    I.claimant o = none := by
  rw [Interface.claimant, List.find?_eq_none]
  intro m hm
  simpa using h m hm

theorem entries_length (I : Interface F) : I.entries.length = 64 := by
  rw [Interface.entries, List.length_map, List.length_range]
  rfl

theorem entries_at (I : Interface F) {o : Unsigned 8} (hword : o.toNat % 8 = 0)
    (hhigh : o.toNat < 0x200) :
    ∃ O, O * word = o ∧ I.entries[o.toNat / 8]? = some (I.entryOf O) := by
  have hindex : o.toNat / 8 < slotCount.toNat := by
    have hcount : slotCount.toNat = 64 := rfl
    omega
  refine ⟨BitVec.ofNat _ (o.toNat / 8), ?_, ?_⟩
  · rw [← BitVec.toNat_inj, BitVec.toNat_mul, BitVec.toNat_ofNat]
    have hvalue : word.toNat = 8 := rfl
    rw [hvalue]
    omega
  · rw [Interface.entries, List.getElem?_map, List.getElem?_range hindex]
    rfl

/-- Behind `IUnknown` there is the function that claims the slot, or else a stub. -/
theorem entries_placeable (I : Interface F) {o : Unsigned 8} (ho : Placeable o) :
    I.entries[o.toNat / 8]? = some (match I.claimant o with
      | some m => .member m.function
      | none =>
        if I.isDeclined o then .declining o
        else if I.isDeclinedFalse o then .decliningFalse o
        else .unrecovered o) := by
  obtain ⟨hword, hlow, hhigh⟩ := ho
  obtain ⟨O, hO, hentry⟩ := entries_at I hword hhigh
  have hzero : o ≠ 0 := by
    rintro rfl
    exact absurd hlow (by decide)
  have hone : o ≠ word := by
    rintro rfl
    exact absurd hlow (by decide)
  have htwo : o ≠ 2 * word := by
    rintro rfl
    exact absurd hlow (by decide)
  rw [hentry, Interface.entryOf]
  simp only [hO, hzero, hone, htwo, if_false]

theorem slotOf_eq (I : Interface F) (o : Unsigned 8) :
    I.slotOf o = .ok (if o.toNat < 0x200 ∧ o.toNat % 8 = 0 then I.entries[o.toNat / 8]?
      else none) := by
  have hguard : (o < maxSlot ∧ o % word = 0) ↔ o.toNat < 0x200 ∧ o.toNat % 8 = 0 := by
    rw [BitVec.lt_def, ← BitVec.toNat_inj, BitVec.toNat_umod]
    rfl
  have hindex : (o / word).toNat = o.toNat / 8 := by
    rw [BitVec.toNat_udiv]
    rfl
  rw [Interface.slotOf]
  simp only [hguard, hindex]
  split_ifs with hinside
  · obtain ⟨O, -, hentry⟩ := entries_at I hinside.2 hinside.1
    rw [hentry]
  · rfl

/-- Nothing is complained about just if a table can be made. It has each function in the slot that the
function claims and in each other a stub that knows its offset, and no offset reads outside it. -/
theorem malformed_iff (I : Interface F) : ∃ r, I.malformed = .ok r ∧ (r = [] ↔ WellFormed I) ∧
    (r = [] →
      I.entries.length = 64 ∧
      I.entries.take 3 = [.queryInterface, .addRef, .release] ∧
      (∀ m ∈ I.members, ∀ o ∈ m.slots, I.entries[o.toNat / 8]? = some (.member m.function)) ∧
      (∀ o, Placeable o → (∀ m ∈ I.members, o ∉ m.slots) →
        I.entries[o.toNat / 8]? = some (if o ∈ I.declined then .declining o
          else if o ∈ I.declinedFalse then .decliningFalse o else .unrecovered o)) ∧
      ∀ o, ∃ e, I.slotOf o = .ok e ∧
        (o.toNat < 0x200 ∧ o.toNat % 8 = 0 → e.isSome = true ∧ e = I.entries[o.toNat / 8]?) ∧
        (¬ (o.toNat < 0x200 ∧ o.toNat % 8 = 0) → e = none)) := by
  obtain ⟨r, hok, hiff⟩ := malformed_ok I
  refine ⟨r, hok, hiff, ?_⟩
  intro hnone
  have hwell := hiff.mp hnone
  refine ⟨entries_length I, rfl, ?_, ?_, ?_⟩
  · intro m hm o ho
    rw [entries_placeable I (hwell.claimed m hm o ho), claimant_of_mem hwell hm ho]
  · intro o hplace hfree
    rw [entries_placeable I hplace, claimant_of_not_mem hfree]
    simp only [Interface.isDeclined_iff, Interface.isDeclinedFalse_iff]
  · intro o
    refine ⟨_, slotOf_eq I o, ?_, ?_⟩
    · intro hinside
      obtain ⟨O, -, hentry⟩ := entries_at I hinside.2 hinside.1
      rw [if_pos hinside, hentry]
      exact ⟨rfl, rfl⟩
    · intro houtside
      exact if_neg houtside

end IW4x.Gdk.Vtable
