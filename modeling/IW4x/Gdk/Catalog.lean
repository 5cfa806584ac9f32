import IW4x.Gdk.Types
import IW4x.Gdk.Interfaces

/-!
# Catalogs of interfaces

A catalog publishes interfaces, each under a pair of GUIDs, and knows which families of features they
make up. It is checked while the program is compiled: no two interfaces answer to one pair, and no
interface is complained about. Then every function is reached through the pair of its interface and
its own slot, and nothing else is.
-/

namespace IW4x.Gdk

open Hex Vtable

def E_NOINTERFACE : HResult := 0x80004002

/-! ## GUIDs -/

namespace Guid

/-- `bit_cast` to two words; the lowest byte comes first. -/
def words (g : Guid) : BitVec 64 × BitVec 64 :=
  (g.data3 ++ g.data2 ++ g.data1,
    g.data4[7] ++ g.data4[6] ++ g.data4[5] ++ g.data4[4] ++ g.data4[3] ++ g.data4[2] ++ g.data4[1] ++
      g.data4[0])

/-- `operator==`. -/
def equal (x y : Guid) : Bool :=
  (x.words.1 ^^^ y.words.1) ||| (x.words.2 ^^^ y.words.2) == 0#64

theorem append_inj {n k : ℕ} {a a' : BitVec n} {b b' : BitVec k} (h : a ++ b = a' ++ b') :
    a = a' ∧ b = b' := by
  constructor
  · rw [← BitVec.extractLsb'_append_eq_left (a := a) (b := b), h, BitVec.extractLsb'_append_eq_left]
  · rw [← BitVec.extractLsb'_append_eq_right (a := a) (b := b), h,
      BitVec.extractLsb'_append_eq_right]

theorem words_injective : Function.Injective words := by
  rintro ⟨a, b, c, d⟩ ⟨a', b', c', d'⟩ h
  obtain ⟨hlow, hhigh⟩ := Prod.mk.inj h
  obtain ⟨hcb, ha⟩ := append_inj hlow
  obtain ⟨hc, hb⟩ := append_inj hcb
  obtain rfl : a = a' := ha
  obtain rfl : b = b' := hb
  obtain rfl : c = c' := hc
  obtain ⟨h₁, h0⟩ := append_inj hhigh
  obtain ⟨h₂, h1⟩ := append_inj h₁
  obtain ⟨h₃, h2⟩ := append_inj h₂
  obtain ⟨h₄, h3⟩ := append_inj h₃
  obtain ⟨h₅, h4⟩ := append_inj h₄
  obtain ⟨h₆, h5⟩ := append_inj h₅
  obtain ⟨h7, h6⟩ := append_inj h₆
  have hd : d = d' := by
    apply Vector.ext
    intro i hi
    interval_cases i <;> assumption
  rw [hd]

@[simp] theorem equal_iff (x y : Guid) : x.equal y = true ↔ x = y := by
  rw [equal, beq_iff_eq, BitVec.or_eq_zero_iff, BitVec.xor_eq_zero_iff, BitVec.xor_eq_zero_iff,
    ← Prod.ext_iff, words_injective.eq_iff]

end Guid

/-! ## Catalogs -/

def familyBit (f : BitVec 32) : BitVec 32 := if f.toNat < 32 then 1#32 <<< f.toNat else 0

section

variable {F : Type*}

def familiesOf (p : Published F) : BitVec 32 := p.features.foldl (fun r f => r ||| familyBit f) 0

/-- The body of the loops of `collided`. -/
def collide (x : Published F) (r : Bytes) (y : Published F) : Bytes :=
  if !(x.api.equal y.api) || !(x.id.equal y.id) then r
  else (if r.isEmpty then r else r ++ ascii ", ") ++ x.label ++ ascii " and " ++ y.label ++
    ascii " answer to one pair"

/-- The loops of `collided`, with the report so far. -/
def collideAll : Bytes → List (Published F) → Bytes
  | r, [] => r
  | r, x :: ps => collideAll (ps.foldl (collide x) r) ps

def collided (ps : List (Published F)) : Bytes := collideAll [] ps

def families (ps : List (Published F)) : BitVec 32 := ps.foldl (fun r p => r ||| familiesOf p) 0

def find (ps : List (Published F)) (a i : Guid) : Option (Published F) :=
  ps.find? fun b => b.api.equal a && b.id.equal i

def provides (ps : List (Published F)) (f : BitVec 32) : Bool :=
  familyBit f != 0 && families ps &&& familyBit f != 0

def familyCount (ps : List (Published F)) : ℕ := (List.range 32).countP (families ps).getLsbD

/-- `QueryApiImpl`, and what it leaves in `out`, if there is one. -/
def queryApi (ps : List (Published F)) (a i : Option Guid) (out : Bool) :
    HResult × Option (Published F) :=
  match a, i, out with
  | some a, some i, true =>
    match find ps a i with
    | some o => (S_OK, some o)
    | none => (E_NOINTERFACE, none)
  | _, _, _ => (E_POINTER, none)

def isFeatureAvailable (ps : List (Published F)) (f : BitVec 32) : BitVec 8 :=
  if provides ps f then 1 else 0

/-! ## What the check of a catalog says -/

theorem collide_eq_nil (x y : Published F) (r : Bytes) :
    collide x r y = [] ↔ r = [] ∧ ¬ (x.api = y.api ∧ x.id = y.id) := by
  have hpair : (!(x.api.equal y.api) || !(x.id.equal y.id)) = true ↔
      ¬ (x.api = y.api ∧ x.id = y.id) := by
    rw [← Guid.equal_iff, ← Guid.equal_iff, Bool.or_eq_true, Bool.not_eq_true', Bool.not_eq_true']
    cases x.api.equal y.api <;> cases x.id.equal y.id <;> simp
  have htext : ascii " and " ≠ [] := by decide
  rw [collide]
  split_ifs with hapart hempty
  · simp [hpair.mp hapart]
  · have hsame := mt hpair.mpr hapart
    simp [htext, not_not.mp hsame]
  · have hsame := mt hpair.mpr hapart
    simp [htext, not_not.mp hsame]

theorem foldl_collide_eq_nil (x : Published F) (ps : List (Published F)) (r : Bytes) :
    ps.foldl (collide x) r = [] ↔ r = [] ∧ ∀ y ∈ ps, ¬ (x.api = y.api ∧ x.id = y.id) := by
  induction ps generalizing r with
  | nil => simp
  | cons y ps ih =>
    rw [List.foldl_cons, ih, collide_eq_nil, List.forall_mem_cons, and_assoc]

theorem collideAll_eq_nil (ps : List (Published F)) (r : Bytes) : collideAll r ps = [] ↔
    r = [] ∧ ps.Pairwise fun x y => ¬ (x.api = y.api ∧ x.id = y.id) := by
  induction ps generalizing r with
  | nil => simp [collideAll]
  | cons x ps ih =>
    rw [collideAll, ih, foldl_collide_eq_nil, List.pairwise_cons, and_assoc]

/-- Where nothing collides, what is found under a pair is what is published under it. -/
theorem find_eq_some_iff {ps : List (Published F)} (h : collided ps = []) {a i : Guid}
    {p : Published F} : find ps a i = some p ↔ p ∈ ps ∧ p.api = a ∧ p.id = i := by
  have hpairs := ((collideAll_eq_nil ps []).mp h).2
  clear h
  induction ps with
  | nil => simp [find]
  | cons x ps ih =>
    obtain ⟨hfirst, hrest⟩ := List.pairwise_cons.mp hpairs
    rw [find, List.find?_cons]
    by_cases hx : x.api = a ∧ x.id = i
    · have hhit : (x.api.equal a && x.id.equal i) = true := by simp [hx]
      rw [hhit]
      constructor
      · intro heq
        obtain rfl := Option.some.inj heq
        exact ⟨List.mem_cons_self, hx⟩
      · rintro ⟨hp, hpair⟩
        rcases List.mem_cons.mp hp with rfl | hp
        · rfl
        · exact absurd ⟨hx.1.trans hpair.1.symm, hx.2.trans hpair.2.symm⟩ (hfirst p hp)
    · have hmiss : (x.api.equal a && x.id.equal i) = false := by
        rw [← Bool.not_eq_true, Bool.and_eq_true, Guid.equal_iff, Guid.equal_iff]
        exact hx
      rw [hmiss]
      refine (ih hrest).trans ?_
      constructor
      · rintro ⟨hp, hpair⟩
        exact ⟨List.mem_cons_of_mem x hp, hpair⟩
      · rintro ⟨hp, hpair⟩
        rcases List.mem_cons.mp hp with rfl | hp
        · exact absurd hpair hx
        · exact ⟨hp, hpair⟩

theorem slotOf_placeable {I : Interface F} {o : Unsigned 8} (h : Placeable o) :
    I.slotOf o = .ok (some (match I.claimant o with
      | some m => .member m.function
      | none =>
        if I.isDeclined o then .declining o
        else if I.isDeclinedFalse o then .decliningFalse o
        else .unrecovered o)) := by
  obtain ⟨hword, -, hhigh⟩ := (placeable_iff o).mp h
  have hinside : o.toNat < 0x200 ∧ o.toNat % 8 = 0 := by
    rw [not_not, ← BitVec.toNat_inj, BitVec.toNat_umod] at hword
    exact ⟨BitVec.lt_def.mp (BitVec.not_le.mp hhigh), hword⟩
  rw [slotOf_eq, if_pos hinside]
  exact congrArg Except.ok (entries_placeable I h)

theorem runtime_passes : collided runtime = [] ∧ ∀ p ∈ runtime, p.malformed = .ok [] := by
  constructor <;> decide

/-- The catalog of a program that is compiled. Every function that an interface claims a slot for is
reached through the pair of the interface and the slot; a slot that nothing claims leads to a stub
that knows the slot; a pair that nothing is published under is refused, and nothing is left in
`out`. The catalog of the runtime is such a catalog. -/
theorem catalog_reaches {ps : List (Published F)} (hcollided : collided ps = [])
    (hwell : ∀ p ∈ ps, p.malformed = .ok []) :
    (∀ p ∈ ps, queryApi ps (some p.api) (some p.id) true = (S_OK, some p) ∧
      (∀ m ∈ p.members, ∀ o ∈ m.slots, p.slotOf o = .ok (some (.member m.function))) ∧
      ∀ o, Placeable o → (∀ m ∈ p.members, o ∉ m.slots) → ∃ stub ∈
        [Entry.declining o, .decliningFalse o, .unrecovered o], p.slotOf o = .ok (some stub)) ∧
    (∀ a i, (∀ p ∈ ps, ¬ (p.api = a ∧ p.id = i)) →
      queryApi ps (some a) (some i) true = (E_NOINTERFACE, none)) ∧
    collided runtime = [] ∧ ∀ p ∈ runtime, p.malformed = .ok [] := by
  refine ⟨?_, ?_, runtime_passes⟩
  · intro p hp
    obtain ⟨r, hok, hr⟩ := malformed_ok p.toInterface
    have hform : WellFormed p.toInterface := by
      rw [hwell p hp] at hok
      exact hr.mp (Except.ok.inj hok).symm
    refine ⟨?_, ?_, ?_⟩
    · simp only [queryApi, (find_eq_some_iff hcollided).mpr ⟨hp, rfl, rfl⟩]
    · intro m hm o ho
      have hplace := hform.claimed m hm o ho
      rw [slotOf_placeable hplace, claimant_of_mem hform hm ho]
    · intro o hplace hnone
      rw [slotOf_placeable hplace, claimant_of_not_mem hnone]
      dsimp only
      split_ifs
      · exact ⟨_, by simp, rfl⟩
      · exact ⟨_, by simp, rfl⟩
      · exact ⟨_, by simp, rfl⟩
  · intro a i hnone
    have hfind : find ps a i = none := by
      rw [Option.eq_none_iff_forall_ne_some]
      intro p hp
      obtain ⟨hmem, hpair⟩ := (find_eq_some_iff hcollided).mp hp
      exact hnone p hmem hpair
    simp only [queryApi, hfind]

/-- The catalog of the runtime is one of these: the last function of `XUser` stands in its slot, and
the slot behind it is a stub. -/
theorem catalog_reaches_runtime :
    queryApi runtime (some xuser.api) (some xuser.id) true = (S_OK, some xuser) ∧
      xuser.slotOf 0x110 = .ok (some (.member .unregisterForChange)) ∧
      ∃ stub ∈ [Entry.declining 0x118, .decliningFalse 0x118, .unrecovered 0x118],
        xuser.slotOf 0x118 = .ok (some stub) := by
  have hall := (catalog_reaches runtime_passes.1 runtime_passes.2).1 xuser (by simp [runtime])
  refine ⟨hall.1, hall.2.1 (slotted .unregisterForChange 0x110) (by simp [xuser]) 0x110 ?_, ?_⟩
  · exact List.mem_singleton_self _
  · exact hall.2.2 0x118 ⟨by decide, by decide, by decide⟩ (by decide)

/-! ## Families of features -/

theorem familyBit_eq (f : BitVec 32) :
    familyBit f = if f.toNat < 32 then BitVec.twoPow 32 f.toNat else 0#32 := rfl

theorem getLsbD_familyBit (f : BitVec 32) (n : ℕ) :
    (familyBit f).getLsbD n = true ↔ f.toNat < 32 ∧ n = f.toNat := by
  rw [familyBit_eq]
  split_ifs with hlt
  · simp [BitVec.getLsbD_twoPow, hlt, eq_comm]
  · simp [hlt]

theorem getLsbD_familiesOf (p : Published F) (n : ℕ) :
    (familiesOf p).getLsbD n = true ↔ n < 32 ∧ ∃ f ∈ p.features, f.toNat = n := by
  have hfold : ∀ (fs : List (BitVec 32)) (r : BitVec 32),
      (fs.foldl (fun r f => r ||| familyBit f) r).getLsbD n = true ↔
        r.getLsbD n = true ∨ (n < 32 ∧ ∃ f ∈ fs, f.toNat = n) := by
    intro fs
    induction fs with
    | nil => simp
    | cons f fs ih =>
      intro r
      rw [List.foldl_cons, ih, BitVec.getLsbD_or, Bool.or_eq_true, getLsbD_familyBit, or_assoc]
      simp only [List.mem_cons, exists_eq_or_imp]
      constructor
      · rintro (h | ⟨hlt, rfl⟩ | ⟨hlt, h⟩)
        · exact .inl h
        · exact .inr ⟨hlt, .inl rfl⟩
        · exact .inr ⟨hlt, .inr h⟩
      · rintro (h | ⟨hlt, rfl | h⟩)
        · exact .inl h
        · exact .inr (.inl ⟨hlt, rfl⟩)
        · exact .inr (.inr ⟨hlt, h⟩)
  rw [familiesOf, hfold]
  simp

theorem getLsbD_families (ps : List (Published F)) (n : ℕ) :
    (families ps).getLsbD n = true ↔
      n < 32 ∧ ∃ f ∈ ps.flatMap Published.features, f.toNat = n := by
  have hfold : ∀ (ps : List (Published F)) (r : BitVec 32),
      (ps.foldl (fun r p => r ||| familiesOf p) r).getLsbD n = true ↔
        r.getLsbD n = true ∨ (n < 32 ∧ ∃ f ∈ ps.flatMap Published.features, f.toNat = n) := by
    intro ps
    induction ps with
    | nil => simp
    | cons p ps ih =>
      intro r
      rw [List.foldl_cons, ih, BitVec.getLsbD_or, Bool.or_eq_true, getLsbD_familiesOf, or_assoc]
      simp only [List.flatMap_cons, List.mem_append, or_and_right, exists_or, and_or_left]
  rw [families, hfold]
  simp

/-- A feature is available if and only if an interface of the catalog names it, whatever number the
game asks for, and a number that no family has shares the bit of none. So many families are counted as
the interfaces name between them. -/
theorem features_available (ps : List (Published F)) :
    (∀ f, isFeatureAvailable ps f =
      if f.toNat < 32 ∧ f ∈ ps.flatMap Published.features then 1 else 0) ∧
    familyCount ps =
      ((ps.flatMap Published.features).filter fun f => f.toNat < 32).toFinset.card := by
  constructor
  · intro f
    have hprovides : provides ps f = true ↔
        f.toNat < 32 ∧ f ∈ ps.flatMap Published.features := by
      rw [provides, familyBit_eq]
      split_ifs with hlt
      · have hmem := getLsbD_families ps f.toNat
        have hne : BitVec.twoPow 32 f.toNat ≠ 0#32 := by
          intro hzero
          have hbit := congrArg (·.getLsbD f.toNat) hzero
          simp [hlt] at hbit
        simp only [hlt, true_and, BitVec.toNat_inj, exists_eq_right] at hmem ⊢
        rw [← hmem, BitVec.and_twoPow]
        cases (families ps).getLsbD f.toNat with
        | true => simpa using hne
        | false => simp
      · simp [hlt]
    rw [isFeatureAvailable]
    simp only [hprovides]
  · have himage : (Finset.range 32).filter (fun n => (families ps).getLsbD n = true) =
        ((ps.flatMap Published.features).filter fun f => f.toNat < 32).toFinset.image
          BitVec.toNat := by
      ext n
      simp only [Finset.mem_filter, Finset.mem_range, getLsbD_families, Finset.mem_image,
        List.mem_toFinset, List.mem_filter, decide_eq_true_eq]
      constructor
      · rintro ⟨hlt, -, f, hf, rfl⟩
        exact ⟨f, ⟨hf, hlt⟩, rfl⟩
      · rintro ⟨f, ⟨hf, hlt⟩, rfl⟩
        exact ⟨hlt, hlt, f, hf, rfl⟩
    rw [familyCount, List.countP_eq_length_filter,
      ← Finset.card_image_of_injective _ (fun a b => BitVec.toNat_inj.mp), ← himage]
    have hdecide : (fun n => decide ((families ps).getLsbD n = true)) = (families ps).getLsbD :=
      funext fun n => Bool.decide_eq_true
    change _ = ((List.range 32).filter fun n => decide ((families ps).getLsbD n = true)).length
    rw [hdecide]

example : familyCount runtime = 11 := by decide

end

end IW4x.Gdk
