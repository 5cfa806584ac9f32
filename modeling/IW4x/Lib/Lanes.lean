import Mathlib.Data.Nat.Digits.Lemmas
import Mathlib.Tactic

/-!
# Lanes of a word

A word that is used as a row of lanes of the same width is the number its lanes spell, the lowest
lane first. As long as every lane keeps within its width, the bitwise operations, the shifts by
whole lanes and the addition work on each lane by itself, and a lane can be cut in two or two lanes
be joined.
-/

namespace Lanes

variable {w : ℕ}

/-- The word whose lanes, `w` bits wide, have these values. -/
def pack (w : ℕ) (lanes : List ℕ) : ℕ := Nat.ofDigits (2 ^ w) lanes

/-- Every lane keeps within its width. -/
def Fits (w : ℕ) (lanes : List ℕ) : Prop := ∀ d ∈ lanes, d < 2 ^ w

instance (w : ℕ) (lanes : List ℕ) : Decidable (Fits w lanes) := by
  unfold Fits
  infer_instance

@[simp] theorem pack_nil (w : ℕ) : pack w [] = 0 := rfl

@[simp] theorem pack_cons (w d : ℕ) (lanes : List ℕ) :
    pack w (d :: lanes) = d + 2 ^ w * pack w lanes := by
  simp [pack, Nat.ofDigits_cons]

theorem fits_cons {d : ℕ} {lanes : List ℕ} : Fits w (d :: lanes) ↔ d < 2 ^ w ∧ Fits w lanes := by
  simp [Fits]

theorem pack_lt {lanes : List ℕ} (fits : Fits w lanes) : pack w lanes < 2 ^ (w * lanes.length) := by
  induction lanes with
  | nil => simp
  | cons d lanes ih =>
    obtain ⟨hd, hlanes⟩ := fits_cons.mp fits
    have hpack := ih hlanes
    have hpow : 2 ^ (w * (lanes.length + 1)) = 2 ^ w * 2 ^ (w * lanes.length) := by
      rw [← pow_add]
      ring_nf
    rw [pack_cons, List.length_cons, hpow]
    calc d + 2 ^ w * pack w lanes < 2 ^ w + 2 ^ w * pack w lanes := by omega
      _ = 2 ^ w * (pack w lanes + 1) := by ring
      _ ≤ 2 ^ w * 2 ^ (w * lanes.length) := Nat.mul_le_mul_left _ hpack

theorem testBit_cons {d : ℕ} {lanes : List ℕ} (hd : d < 2 ^ w) (i : ℕ) :
    (pack w (d :: lanes)).testBit i =
      if i < w then d.testBit i else (pack w lanes).testBit (i - w) := by
  rw [pack_cons, Nat.add_comm]
  exact Nat.testBit_two_pow_mul_add _ hd i

theorem exists_of_mem_zipWith {f : ℕ → ℕ → ℕ} {l m : List ℕ} {d : ℕ}
    (h : d ∈ List.zipWith f l m) : ∃ a b, a ∈ l ∧ b ∈ m ∧ f a b = d := by
  rw [← List.map_uncurry_zip_eq_zipWith, List.mem_map] at h
  obtain ⟨⟨a, b⟩, hab, rfl⟩ := h
  exact ⟨a, b, (List.of_mem_zip hab).1, (List.of_mem_zip hab).2, rfl⟩

theorem land_pack {l m : List ℕ} (hl : Fits w l) (hm : Fits w m) (length : l.length = m.length) :
    pack w l &&& pack w m = pack w (List.zipWith (· &&& ·) l m) := by
  induction l generalizing m with
  | nil => simp
  | cons a l ih =>
    cases m with
    | nil => simp at length
    | cons b m =>
      obtain ⟨ha, hl⟩ := fits_cons.mp hl
      obtain ⟨hb, hm⟩ := fits_cons.mp hm
      have hrest := ih hl hm (by simpa using length)
      apply Nat.eq_of_testBit_eq
      intro i
      rw [Nat.testBit_and, testBit_cons ha, testBit_cons hb, List.zipWith_cons_cons,
        testBit_cons (Nat.and_lt_two_pow a hb), ← hrest]
      split_ifs <;> simp

theorem lor_pack {l m : List ℕ} (hl : Fits w l) (hm : Fits w m) (length : l.length = m.length) :
    pack w l ||| pack w m = pack w (List.zipWith (· ||| ·) l m) := by
  induction l generalizing m with
  | nil =>
    cases m with
    | nil => simp
    | cons b m => simp at length
  | cons a l ih =>
    cases m with
    | nil => simp at length
    | cons b m =>
      obtain ⟨ha, hl⟩ := fits_cons.mp hl
      obtain ⟨hb, hm⟩ := fits_cons.mp hm
      have hrest := ih hl hm (by simpa using length)
      apply Nat.eq_of_testBit_eq
      intro i
      rw [Nat.testBit_or, testBit_cons ha, testBit_cons hb, List.zipWith_cons_cons,
        testBit_cons (Nat.or_lt_two_pow ha hb), ← hrest]
      split_ifs <;> simp

theorem shiftLeft_pack (w k : ℕ) (l : List ℕ) :
    pack w l <<< (w * k) = pack w (List.replicate k 0 ++ l) := by
  induction k with
  | zero => simp
  | succ k ih =>
    rw [List.replicate_succ, List.cons_append, pack_cons, ← ih, Nat.shiftLeft_eq,
      Nat.shiftLeft_eq, Nat.mul_succ, pow_add]
    ring

theorem shiftRight_pack {l : List ℕ} (fits : Fits w l) (k : ℕ) :
    pack w l >>> (w * k) = pack w (l.drop k) := by
  induction k generalizing l with
  | zero => simp
  | succ k ih =>
    cases l with
    | nil => simp
    | cons d l =>
      obtain ⟨hd, hl⟩ := fits_cons.mp fits
      rw [List.drop_succ_cons, ← ih hl, Nat.mul_succ, Nat.add_comm (w * k) w, Nat.shiftRight_add]
      congr 1
      rw [pack_cons, Nat.shiftRight_eq_div_pow, Nat.add_mul_div_left _ _ (by positivity),
        Nat.div_eq_of_lt hd, Nat.zero_add]

theorem add_pack {l m : List ℕ} (length : l.length = m.length) :
    pack w l + pack w m = pack w (List.zipWith (· + ·) l m) :=
  Nat.ofDigits_add_ofDigits_eq_ofDigits_zipWith_of_length_eq length

theorem mul_pack (n : ℕ) (l : List ℕ) : n * pack w l = pack w (l.map (n * ·)) :=
  Nat.mul_ofDigits n

theorem lane_pack {l : List ℕ} (fits : Fits w l) {i : ℕ} (hi : i < l.length) :
    (pack w l >>> (w * i)) % 2 ^ w = l[i] := by
  rw [shiftRight_pack fits, List.drop_eq_getElem_cons hi, pack_cons, Nat.add_mul_mod_self_left]
  exact Nat.mod_eq_of_lt (fits _ (List.getElem_mem hi))

theorem pack_halves (w : ℕ) (l : List ℕ) :
    pack (2 * w) l = pack w (l.flatMap fun d => [d % 2 ^ w, d / 2 ^ w]) := by
  induction l with
  | nil => rfl
  | cons d l ih =>
    have hd := Nat.mod_add_div d (2 ^ w)
    have hpow : 2 ^ (2 * w) = 2 ^ w * 2 ^ w := by
      rw [two_mul, pow_add]
    simp only [List.flatMap_cons, List.cons_append, List.nil_append, pack_cons, ← ih, hpow]
    calc d + 2 ^ w * 2 ^ w * pack (2 * w) l
        = (d % 2 ^ w + 2 ^ w * (d / 2 ^ w)) + 2 ^ w * 2 ^ w * pack (2 * w) l := by rw [hd]
      _ = d % 2 ^ w + 2 ^ w * (d / 2 ^ w + 2 ^ w * pack (2 * w) l) := by ring

theorem fits_halves {l : List ℕ} (fits : Fits (2 * w) l) :
    Fits w (l.flatMap fun d => [d % 2 ^ w, d / 2 ^ w]) := by
  intro x hx
  simp only [List.mem_flatMap, List.mem_cons, List.not_mem_nil, or_false] at hx
  obtain ⟨d, hd, rfl | rfl⟩ := hx
  · exact Nat.mod_lt _ (by positivity)
  · have hlt := fits d hd
    rw [two_mul, pow_add] at hlt
    exact Nat.div_lt_of_lt_mul hlt

theorem Fits.append_zeros {l : List ℕ} (fits : Fits w l) (k : ℕ) :
    Fits w (l ++ List.replicate k 0) := by
  intro d hd
  rcases List.mem_append.mp hd with hd | hd
  · exact fits d hd
  · rw [List.eq_of_mem_replicate hd]
    positivity

theorem pack_append_zeros (w k : ℕ) (l : List ℕ) :
    pack w (l ++ List.replicate k 0) = pack w l :=
  Nat.ofDigits_append_replicate_zero l

/-- The machine word is a row of lanes that fill it. -/
structure Row (w : ℕ) {n : ℕ} (x : BitVec n) (lanes : List ℕ) : Prop where
  value : x.toNat = pack w lanes
  fits : Fits w lanes
  width : w * lanes.length = n

namespace Row

variable {n : ℕ} {x y : BitVec n} {l m : List ℕ}

theorem length (hw : 0 < w) (hx : Row w x l) (hy : Row w y m) : l.length = m.length := by
  have h := hx.width.trans hy.width.symm
  exact Nat.eq_of_mul_eq_mul_left hw h

theorem and (hw : 0 < w) (hx : Row w x l) (hy : Row w y m) :
    Row w (x &&& y) (List.zipWith (· &&& ·) l m) := by
  have hlength := hx.length hw hy
  refine ⟨?_, ?_, ?_⟩
  · rw [BitVec.toNat_and, hx.value, hy.value, land_pack hx.fits hy.fits hlength]
  · intro d hd
    obtain ⟨a, b, ha, hb, rfl⟩ := exists_of_mem_zipWith hd
    exact Nat.and_lt_two_pow a (hy.fits b hb)
  · simp [← hx.width, hlength]

theorem or (hw : 0 < w) (hx : Row w x l) (hy : Row w y m) :
    Row w (x ||| y) (List.zipWith (· ||| ·) l m) := by
  have hlength := hx.length hw hy
  refine ⟨?_, ?_, ?_⟩
  · rw [BitVec.toNat_or, hx.value, hy.value, lor_pack hx.fits hy.fits hlength]
  · intro d hd
    obtain ⟨a, b, ha, hb, rfl⟩ := exists_of_mem_zipWith hd
    exact Nat.or_lt_two_pow (hx.fits a ha) (hy.fits b hb)
  · simp [← hx.width, hlength]

theorem setWidth {k n' : ℕ} (hx : Row w x l) (width : w * (l.length + k) = n') :
    Row w (x.setWidth n') (l ++ List.replicate k 0) := by
  have hfits := hx.fits.append_zeros k
  have hwidth : w * (l ++ List.replicate k 0).length = n' := by
    rw [← width]
    simp
  have hlt := pack_lt hfits
  rw [hwidth, pack_append_zeros] at hlt
  refine ⟨?_, hfits, hwidth⟩
  rw [BitVec.toNat_setWidth, hx.value, pack_append_zeros, Nat.mod_eq_of_lt hlt]

theorem shiftLeft {k : ℕ} (hx : Row w x (l ++ List.replicate k 0)) :
    Row w (x <<< (w * k)) (List.replicate k 0 ++ l) := by
  have hfits : Fits w (List.replicate k 0 ++ l) := by
    intro d hd
    refine hx.fits d ?_
    simp only [List.mem_append] at hd ⊢
    exact hd.symm
  have hwidth : w * (List.replicate k 0 ++ l).length = n := by
    rw [← hx.width]
    simp [Nat.add_comm]
  have hlt := pack_lt hfits
  rw [hwidth] at hlt
  refine ⟨?_, hfits, hwidth⟩
  rw [BitVec.toNat_shiftLeft, hx.value, pack_append_zeros, shiftLeft_pack, Nat.mod_eq_of_lt hlt]

theorem shiftRight {k : ℕ} (hx : Row w x l) (hk : k ≤ l.length) :
    Row w (x >>> (w * k)) (l.drop k ++ List.replicate k 0) := by
  have hfits : Fits w (l.drop k) := fun d hd => hx.fits d (List.mem_of_mem_drop hd)
  refine ⟨?_, hfits.append_zeros k, ?_⟩
  · rw [BitVec.toNat_ushiftRight, hx.value, shiftRight_pack hx.fits, pack_append_zeros]
  · rw [← hx.width]
    simp [hk]

theorem add (hw : 0 < w) (hx : Row w x l) (hy : Row w y m)
    (fits : Fits w (List.zipWith (· + ·) l m)) : Row w (x + y) (List.zipWith (· + ·) l m) := by
  have hlength := hx.length hw hy
  have hwidth : w * (List.zipWith (· + ·) l m).length = n := by
    simp [← hx.width, hlength]
  have hlt := pack_lt fits
  rw [hwidth] at hlt
  refine ⟨?_, fits, hwidth⟩
  rw [BitVec.toNat_add, hx.value, hy.value, add_pack hlength, Nat.mod_eq_of_lt hlt]

theorem mul (hx : Row w x l) (fits : Fits w (l.map (y.toNat * ·))) :
    Row w (x * y) (l.map (y.toNat * ·)) := by
  have hwidth : w * (l.map (y.toNat * ·)).length = n := by
    simp [← hx.width]
  have hlt := pack_lt fits
  rw [hwidth] at hlt
  refine ⟨?_, fits, hwidth⟩
  rw [BitVec.toNat_mul, hx.value, Nat.mul_comm, mul_pack, Nat.mod_eq_of_lt hlt]

theorem halves (hx : Row (2 * w) x l) :
    Row w x (l.flatMap fun d => [d % 2 ^ w, d / 2 ^ w]) := by
  refine ⟨?_, fits_halves hx.fits, ?_⟩
  · rw [hx.value, pack_halves]
  · rw [← hx.width]
    simp [List.length_flatMap]
    ring

theorem join {wide : List ℕ} (hx : Row w x (wide.flatMap fun d => [d % 2 ^ w, d / 2 ^ w]))
    (fits : Fits (2 * w) wide) : Row (2 * w) x wide := by
  refine ⟨?_, fits, ?_⟩
  · rw [hx.value, pack_halves]
  · rw [← hx.width]
    simp [List.length_flatMap]
    ring

theorem lane (hx : Row w x l) {i : ℕ} (hi : i < l.length) :
    (x.extractLsb' (w * i) w).toNat = l[i] := by
  rw [BitVec.extractLsb'_toNat, hx.value, lane_pack hx.fits hi]

end Row

end Lanes
