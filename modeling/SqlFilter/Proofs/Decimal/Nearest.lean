import SqlFilter.Proofs.Decimal.Rounding

/-!
# The nearest number

A decimal is read as the number nearest to it (`Decimal.isNearest_toBinary64`): no finite number is
nearer, and of two that are equally near it is the one with the even code. What lies beyond all
finite numbers is read as infinity. A finite number is the nearest one just to what lies in the
interval around it (`Binary64.IsNearest.encloses`, `Binary64.Encloses.isNearest`), so that nearest
numbers are unique.
-/

namespace SqlFilter

/-! ## Distances -/

section Distances

variable {a b m : ℚ}

theorem abs_sub_le_abs_sub_iff_of_gt (h : b < a) : |a - m| ≤ |b - m| ↔ a + b ≤ 2 * m := by
  rw [← sq_le_sq, ← sub_nonneg, show (b - m) ^ 2 - (a - m) ^ 2 = (a - b) * (2 * m - (a + b)) by ring,
    mul_nonneg_iff_of_pos_left (sub_pos.2 h), sub_nonneg]

theorem abs_sub_le_abs_sub_iff_of_lt (h : a < b) : |a - m| ≤ |b - m| ↔ 2 * m ≤ a + b := by
  rw [← sq_le_sq, ← sub_nonneg, show (b - m) ^ 2 - (a - m) ^ 2 = (b - a) * (a + b - 2 * m) by ring,
    mul_nonneg_iff_of_pos_left (sub_pos.2 h), sub_nonneg]

/-- Two points are equally far from the middle between them, and from no other point. -/
theorem abs_sub_eq_abs_sub_iff (h : a ≠ b) : |a - m| = |b - m| ↔ a + b = 2 * m := by
  rw [← sq_eq_sq_iff_abs_eq_abs, ← sub_eq_zero,
    show (a - m) ^ 2 - (b - m) ^ 2 = (a - b) * (a + b - 2 * m) by ring, mul_eq_zero,
    or_iff_right (sub_ne_zero.2 h), sub_eq_zero]

end Distances

namespace Binary64

/-! ## Values -/

/-- The magnitude of a code. -/
def magnitude (code : Nat) : ℚ := units code / unit

/-- What a finite number is. -/
def value (x : Binary64) : ℚ := if x.negative then -magnitude x.code else magnitude x.code

theorem unit_pos_rat : (0 : ℚ) < unit := Nat.cast_pos.2 unit_pos

theorem magnitude_strictMono : StrictMono magnitude := fun _ _ h =>
  div_lt_div_of_pos_right (Nat.cast_lt.2 (units_strictMono h)) unit_pos_rat

theorem magnitude_zero : magnitude 0 = 0 := by
  rw [magnitude, units_of_lt (by decide), Nat.cast_zero, zero_div]

theorem magnitude_nonneg (code : Nat) : 0 ≤ magnitude code :=
  magnitude_zero.symm.trans_le (magnitude_strictMono.monotone (Nat.zero_le code))

theorem magnitude_add (b c : Nat) : magnitude b + magnitude c = (units b + units c : Nat) / unit := by
  rw [magnitude, magnitude, Nat.cast_add, add_div]

theorem magnitude_add_infinityCode :
    magnitude (infinityCode - 1) + magnitude (infinityCode - 1 + 1) = 2 * overflow := by
  rw [magnitude_add, units_add_units_infinityCode, div_eq_iff unit_pos_rat.ne']
  push_cast
  ring

theorem abs_value (x : Binary64) : |x.value| = magnitude x.code := by
  unfold value
  split_ifs
  · rw [abs_neg, abs_of_nonneg (magnitude_nonneg _)]
  · exact abs_of_nonneg (magnitude_nonneg _)

/-- The sign of the number is that of `q`. Zeros may have either sign. -/
def SameSign (x : Binary64) (q : ℚ) : Prop := q ≠ 0 → x.negative = decide (q < 0)

theorem SameSign.abs_value_sub {x : Binary64} {q : ℚ} (h : x.SameSign q) :
    |x.value - q| = |magnitude x.code - (|q|)| := by
  obtain rfl | hq := eq_or_ne q 0
  · rw [sub_zero, abs_zero, sub_zero, abs_value, abs_of_nonneg (magnitude_nonneg _)]
  · rw [value, h hq]
    obtain hneg | hpos := lt_or_gt_of_ne hq
    · rw [decide_eq_true hneg, if_pos rfl, abs_of_neg hneg, sub_neg_eq_add, ← abs_neg]
      congr 1
      ring
    · rw [decide_eq_false hpos.not_gt, if_neg Bool.false_ne_true, abs_of_pos hpos]

theorem SameSign.eq_of_abs_eq {x : Binary64} {q v : ℚ} (hq : x.SameSign q) (hv : x.SameSign v)
    (h : |q| = |v|) : q = v := by
  obtain rfl | hne := eq_or_ne v 0
  · rwa [abs_zero, abs_eq_zero] at h
  · have hsign := (hq (abs_ne_zero.1 (h ▸ abs_ne_zero.2 hne))).symm.trans (hv hne)
    rw [decide_eq_decide] at hsign
    obtain heq | rfl := abs_eq_abs.1 h
    · exact heq
    · rw [neg_lt_zero] at hsign
      obtain hlt | hgt := lt_or_gt_of_ne hne
      · exact absurd (hsign.2 hlt) hlt.not_gt
      · exact absurd (hsign.1 hgt) hgt.not_gt

/-! ## Intervals -/

/-- The number lies between the middles to the magnitudes next to that of the code, and on one of
them only if the code is even. -/
def Encloses (code : Nat) (m : ℚ) : Prop :=
  magnitude (code - 1) + magnitude code ≤ 2 * m ∧ 2 * m ≤ magnitude code + magnitude (code + 1) ∧
    (magnitude (code - 1) + magnitude code = 2 * m ∨
      2 * m = magnitude code + magnitude (code + 1) → code % 2 = 0)

namespace Encloses

variable {code : Nat} {m : ℚ} (h : Encloses code m) (b : Nat)

include h

/-- No magnitude is nearer than that of the code. -/
theorem abs_sub_le : |magnitude code - m| ≤ |magnitude b - m| := by
  obtain ⟨hlow, hhigh, -⟩ := h
  obtain hlt | rfl | hlt := Nat.lt_trichotomy b code
  · rw [abs_sub_le_abs_sub_iff_of_gt (magnitude_strictMono hlt)]
    have := magnitude_strictMono.monotone (Nat.le_sub_one_of_lt hlt)
    linarith
  · exact le_rfl
  · rw [abs_sub_le_abs_sub_iff_of_lt (magnitude_strictMono hlt)]
    have := magnitude_strictMono.monotone hlt
    linarith

/-- The code is even if another magnitude is as near. -/
theorem even (hne : code ≠ b) (heq : |magnitude code - m| = |magnitude b - m|) :
    code % 2 = 0 := by
  obtain ⟨hlow, hhigh, heven⟩ := h
  rw [abs_sub_eq_abs_sub_iff (magnitude_strictMono.injective.ne hne)] at heq
  obtain hlt | hlt := Nat.lt_or_gt_of_ne hne
  · have := magnitude_strictMono.monotone hlt
    exact heven (.inr (by linarith))
  · have := magnitude_strictMono.monotone (Nat.le_sub_one_of_lt hlt)
    exact heven (.inl (by linarith))

/-- A number is enclosed by one code only. -/
theorem unique {b : Nat} (h' : Encloses b m) : code = b := by
  wlog hlt : code < b generalizing code b
  · obtain heq | hgt := Nat.eq_or_lt_of_not_lt hlt
    · exact heq
    · exact (this h' h hgt).symm
  -- they would be neighbours with the number in the middle, and both even
  obtain ⟨-, hhigh, heven⟩ := h
  obtain ⟨hlow, -, heven'⟩ := h'
  have hnext := magnitude_strictMono.monotone (Nat.succ_le_of_lt hlt)
  have hprev := magnitude_strictMono.monotone (Nat.le_sub_one_of_lt hlt)
  rw [Nat.succ_eq_add_one] at hnext
  have hsucc : b = code + 1 := magnitude_strictMono.injective (by linarith)
  have hcode := heven (.inr (by linarith))
  have hb := heven' (.inl (by linarith))
  omega

/-- Nothing beyond the finite numbers is enclosed by a finite code. -/
theorem lt_overflow (hfin : code < infinityCode) : m < overflow := by
  obtain ⟨-, hhigh, heven⟩ := h
  obtain rfl | hlt := eq_or_lt_of_le (Nat.le_sub_one_of_lt hfin)
  · rw [magnitude_add_infinityCode] at hhigh heven
    refine lt_of_le_of_ne (by linarith) ?_
    rintro rfl
    exact absurd (heven (.inr rfl)) (by decide)
  · have hcode := magnitude_strictMono hlt
    have hnext := magnitude_strictMono (Nat.succ_lt_succ hlt)
    have hmiddle := magnitude_add_infinityCode
    linarith

end Encloses

section Ratios

variable {u p d : Nat} (hd : 0 < d)

include hd

theorem cast_div_unit_le_iff : (u : ℚ) / unit ≤ p / d ↔ u * d ≤ p * unit := by
  rw [div_le_div_iff₀ unit_pos_rat (Nat.cast_pos.2 hd)]
  exact_mod_cast Iff.rfl

theorem le_cast_div_unit_iff : (p : ℚ) / d ≤ u / unit ↔ p * unit ≤ u * d := by
  rw [div_le_div_iff₀ (Nat.cast_pos.2 hd) unit_pos_rat]
  exact_mod_cast Iff.rfl

theorem cast_div_unit_eq_iff : (u : ℚ) / unit = p / d ↔ u * d = p * unit := by
  rw [le_antisymm_iff, cast_div_unit_le_iff hd, le_cast_div_unit_iff hd, le_antisymm_iff]

theorem eq_cast_div_unit_iff : (p : ℚ) / d = u / unit ↔ p * unit = u * d := by
  rw [eq_comm, cast_div_unit_eq_iff hd, eq_comm]

end Ratios

/-- Ratios are enclosed if they lie in the interval of the code. -/
theorem encloses_iff {code p d : Nat} (hd : 0 < d) : Encloses code (p / d) ↔
    (Decimal.Target.ofCode code).contains (2 * (p * unit)) d = true := by
  have htwo : (2 : ℚ) * (p / d) = (2 * p : Nat) / d := by
    rw [Nat.cast_mul, Nat.cast_two, mul_div_assoc]
  have hassoc : 2 * p * unit = 2 * (p * unit) := Nat.mul_assoc _ _ _
  rw [Encloses, htwo, magnitude_add, magnitude_add, cast_div_unit_le_iff hd,
    le_cast_div_unit_iff hd, cast_div_unit_eq_iff hd, eq_cast_div_unit_iff hd, hassoc]
  simp only [Decimal.Target.contains_iff, Decimal.Target.ofCode, decide_eq_true_eq]

/-- A ratio lies in the interval of the code it rounds to. -/
theorem encloses_nearestCode (p : Nat) {d : Nat} (hd : 0 < d)
    (hfin : nearestCode p d < infinityCode) : Encloses (nearestCode p d) (p / d) := by
  rw [encloses_iff hd, Decimal.Target.contains_iff, Decimal.Target.ofCode]
  obtain ⟨low, hle, hlt, ⟨-, heq⟩ | ⟨-, heq, hlow⟩ | ⟨-, heq, hlow⟩⟩ := nearestCode_cases p hd
  · exact absurd (heq ▸ hfin) (Nat.lt_irrefl _)
  · have hprev : units (low - 1) * d ≤ units low * d :=
      Nat.mul_le_mul_right d (units_strictMono.monotone (Nat.sub_le low 1))
    have hzero : low = 0 ∨ units (low - 1) * d < units low * d := (Nat.eq_zero_or_pos low).imp_right
      fun hpos => Nat.mul_lt_mul_of_pos_right (units_strictMono (Nat.sub_one_lt_of_lt hpos)) hd
    rw [heq]
    rw [Nat.add_mul] at hlow
    simp only [Nat.add_mul, decide_eq_true_eq]
    omega
  · rw [heq]
    have hnext : units (low + 1) * d < units (low + 1 + 1) * d :=
      Nat.mul_lt_mul_of_pos_right (units_strictMono (Nat.lt_succ_self _)) hd
    rw [Nat.add_mul] at hlow
    simp only [Nat.add_mul, Nat.add_sub_cancel, decide_eq_true_eq]
    omega

/-! ## Rounding -/

/-- The number is what `q` is rounded to. -/
structure IsNearest (x : Binary64) (q : ℚ) : Prop where
  sign : x.SameSign q
  /-- Up to the middle above the greatest finite number it is finite, and no finite number is
  nearer. -/
  finite : |q| < overflow → x.isFinite = true
  nearest : |q| < overflow → ∀ y : Binary64, y.isFinite = true → |x.value - q| ≤ |y.value - q|
  /-- Of two that are equally near it is the one with the even code. -/
  even : |q| < overflow → ∀ y : Binary64, y.isFinite = true → y.value ≠ x.value →
    |x.value - q| = |y.value - q| → x.code.val % 2 = 0
  infinite : overflow ≤ |q| → x = .infinity (decide (q < 0))

theorem IsNearest.abs_lt {x : Binary64} {q : ℚ} (h : x.IsNearest q) (hfin : x.isFinite = true) :
    |q| < overflow := by
  by_contra hover
  rw [h.infinite (not_lt.1 hover)] at hfin
  exact absurd hfin (by cases decide (q < 0) <;> decide)

theorem isFinite_ofCode {negative : Bool} {code : Nat} (h : code < infinityCode) :
    (ofCode negative code).isFinite = true ∧ (ofCode negative code).code.val = code := by
  have hval : (ofCode negative code).code.val = code := Nat.mod_eq_of_lt (h.trans (by decide))
  exact ⟨decide_eq_true (hval.symm ▸ h), hval⟩

section Finite

variable {x : Binary64} {q : ℚ} (hfin : x.isFinite = true)

include hfin

/-- A number of the same sign with another code is not nearer. -/
theorem IsNearest.le_of_ne (h : x.IsNearest q) {code : Nat} (hcode : code < infinityCode)
    (hne : code ≠ x.code) : |magnitude x.code - (|q|)| ≤ |magnitude code - (|q|)| ∧
      (|magnitude x.code - (|q|)| = |magnitude code - (|q|)| → x.code.val % 2 = 0) := by
  have hlt := h.abs_lt hfin
  obtain ⟨hfinite, hval⟩ := @isFinite_ofCode x.negative code hcode
  have hsign : (ofCode x.negative code).SameSign q := h.sign
  have hnearest := h.nearest hlt _ hfinite
  have heven := h.even hlt _ hfinite
  rw [h.sign.abs_value_sub, hsign.abs_value_sub, hval] at hnearest heven
  refine ⟨hnearest, heven fun heq => hne ?_⟩
  have habs := congrArg abs heq
  rw [abs_value, abs_value, hval] at habs
  exact magnitude_strictMono.injective habs

theorem IsNearest.encloses (h : x.IsNearest q) : Encloses x.code |q| := by
  have hcode : x.code.val < infinityCode := of_decide_eq_true hfin
  have hother := @IsNearest.le_of_ne x q hfin h
  generalize x.code.val = code at hcode hother
  have hlow : magnitude (code - 1) + magnitude code ≤ 2 * |q| ∧
      (magnitude (code - 1) + magnitude code = 2 * |q| → code % 2 = 0) := by
    obtain rfl | hpos := Nat.eq_zero_or_pos code
    · rw [magnitude_zero, add_zero]
      exact ⟨by positivity, fun _ => rfl⟩
    · have hprev := magnitude_strictMono (Nat.sub_one_lt_of_lt hpos)
      obtain ⟨hle, heven⟩ := hother (by omega) (Nat.sub_one_lt_of_lt hpos).ne
      rw [abs_sub_le_abs_sub_iff_of_gt hprev] at hle
      rw [abs_sub_eq_abs_sub_iff hprev.ne'] at heven
      rw [add_comm]
      exact ⟨hle, heven⟩
  have hhigh : 2 * |q| ≤ magnitude code + magnitude (code + 1) ∧
      (2 * |q| = magnitude code + magnitude (code + 1) → code % 2 = 0) := by
    obtain rfl | hlt := eq_or_lt_of_le (Nat.le_sub_one_of_lt hcode)
    · have hover := h.abs_lt hfin
      rw [magnitude_add_infinityCode]
      exact ⟨by linarith, fun heq => absurd heq (by linarith)⟩
    · have hnext := magnitude_strictMono (Nat.lt_succ_self code)
      obtain ⟨hle, heven⟩ := hother (by omega) (Nat.succ_ne_self code)
      rw [abs_sub_le_abs_sub_iff_of_lt hnext] at hle
      rw [abs_sub_eq_abs_sub_iff hnext.ne] at heven
      exact ⟨hle, fun heq => heven heq.symm⟩
  exact ⟨hlow.1, hhigh.1, Or.rec hlow.2 hhigh.2⟩

theorem Encloses.isNearest (h : Encloses x.code |q|) (hsign : x.SameSign q) : x.IsNearest q := by
  have hdist := hsign.abs_value_sub
  -- no number is nearer than its magnitude
  have hother : ∀ y : Binary64, |magnitude y.code - (|q|)| ≤ |y.value - q| := by
    intro y
    rw [← abs_value]
    exact abs_abs_sub_abs_le _ _
  refine ⟨hsign, fun _ => hfin, fun _ y _ => ?_, fun _ y _ hne heq => ?_, fun hover => ?_⟩
  · rw [hdist]
    exact (h.abs_sub_le y.code).trans (hother y)
  · by_cases hcodes : x.code.val = y.code.val
    · -- numbers of both signs are equally near to zero only, which has the code zero
      have habs : |y.value| = |x.value| := by rw [abs_value, abs_value, hcodes]
      have hopposite := (abs_eq_abs.1 habs).resolve_left hne
      have hzero : q = 0 := by
        have := (abs_sub_eq_abs_sub_iff hne.symm).1 heq
        linarith
      rw [hzero, abs_zero] at h
      obtain ⟨hlow, -⟩ := h
      have hprev := magnitude_nonneg (x.code - 1)
      have hcode : magnitude x.code = magnitude 0 := by
        have := magnitude_nonneg x.code
        rw [magnitude_zero]
        linarith
      rw [magnitude_strictMono.injective hcode]
    · refine h.even y.code hcodes ?_
      exact le_antisymm (h.abs_sub_le y.code) ((hother y).trans_eq (heq.symm.trans hdist))
  · exact absurd hover (not_le.2 (h.lt_overflow (of_decide_eq_true hfin)))

end Finite

/-- Only zero is rounded to more than one number, which differ in their signs. -/
theorem IsNearest.unique {x y : Binary64} {q : ℚ} (hx : x.IsNearest q) (hy : y.IsNearest q)
    (hsign : x.negative = y.negative) : x = y := by
  obtain hlt | hge := lt_or_ge |q| overflow
  · have hcode := (hx.encloses (hx.finite hlt)).unique (hy.encloses (hy.finite hlt))
    obtain ⟨xneg, xcode⟩ := x
    obtain ⟨yneg, ycode⟩ := y
    obtain rfl : xneg = yneg := hsign
    obtain rfl := Fin.val_injective hcode
    rfl
  · rw [hx.infinite hge, hy.infinite hge]

end Binary64

namespace Decimal

open Binary64 (nearestCode infinityCode)

/-! ## Decimals -/

/-- The number that the decimal is. -/
def value (d : Decimal) : ℚ := d.digits * 10 ^ d.exponent

theorem value_eq (d : Decimal) : d.value = d.numerator / d.denominator := by
  obtain ⟨digits, e⟩ := d
  unfold value numerator denominator
  obtain ⟨k, rfl | rfl⟩ := e.eq_nat_or_neg
  · simp
  · simp [div_eq_mul_inv]

theorem value_natCast (n : Nat) : value ⟨n, 0⟩ = n := by
  rw [value, zpow_zero, mul_one]

theorem value_nonneg (d : Decimal) : 0 ≤ d.value := by
  unfold value
  positivity

theorem same_iff {d e : Decimal} : d.Same e ↔ d.value = e.value := by
  have hd : (d.denominator : ℚ) ≠ 0 := Nat.cast_ne_zero.2 d.denominator_pos.ne'
  have he : (e.denominator : ℚ) ≠ 0 := Nat.cast_ne_zero.2 e.denominator_pos.ne'
  rw [value_eq, value_eq, div_eq_div_iff hd he, ← Nat.cast_mul, ← Nat.cast_mul, Nat.cast_inj, Same]

theorem in_iff {d : Decimal} {code : Nat} : d.In (.ofCode code) ↔ Binary64.Encloses code d.value := by
  rw [value_eq, Binary64.encloses_iff d.denominator_pos, In,
    show 2 * Binary64.unit * d.numerator = 2 * (d.numerator * Binary64.unit) by ring]

/-- The number with a sign. -/
def signed (negative : Bool) (d : Decimal) : ℚ := if negative then -d.value else d.value

theorem abs_signed (negative : Bool) (d : Decimal) : |d.signed negative| = d.value := by
  unfold signed
  split_ifs
  · rw [abs_neg, abs_of_nonneg d.value_nonneg]
  · exact abs_of_nonneg d.value_nonneg

theorem signed_inj {negative : Bool} {d e : Decimal} :
    d.signed negative = e.signed negative ↔ d.value = e.value := by
  cases negative with
  | false => exact Iff.rfl
  | true => exact neg_inj

theorem decide_signed_neg {negative : Bool} {d : Decimal} (h : d.signed negative ≠ 0) :
    negative = decide (d.signed negative < 0) := by
  have hpos : 0 < |d.signed negative| := abs_pos.2 h
  rw [abs_signed] at hpos
  unfold signed
  split_ifs with hneg
  · rw [hneg, decide_eq_true (neg_neg_of_pos hpos)]
  · rw [decide_eq_false hpos.not_gt, eq_false_of_ne_true hneg]

/-- **A decimal** is rounded to the number nearest to it, with its own sign. -/
theorem isNearest_toBinary64 (d : Decimal) (negative : Bool) :
    (d.toBinary64 negative).negative = negative ∧
      (d.toBinary64 negative).IsNearest (d.signed negative) := by
  have hden := d.denominator_pos
  have hlt := Binary64.nearestCode_lt_iff d.numerator hden
  have hsign : (Binary64.ofCode negative (nearestCode d.numerator d.denominator)).SameSign
      (d.signed negative) := decide_signed_neg
  rw [toBinary64_eq]
  refine ⟨rfl, ?_⟩
  by_cases hfin : nearestCode d.numerator d.denominator < infinityCode
  · obtain ⟨hfinite, hval⟩ := @Binary64.isFinite_ofCode negative _ hfin
    refine Binary64.Encloses.isNearest hfinite ?_ hsign
    rw [hval, abs_signed, value_eq]
    exact Binary64.encloses_nearestCode _ hden hfin
  · have hover : (Binary64.overflow : ℚ) ≤ |d.signed negative| := by
      rw [abs_signed, value_eq, le_div_iff₀ (Nat.cast_pos.2 hden)]
      exact_mod_cast not_lt.1 (mt hlt.2 hfin)
    have hpos : d.signed negative ≠ 0 := by
      rw [← abs_pos]
      exact (by exact_mod_cast (by decide +kernel : 0 < Binary64.overflow) :
        (0 : ℚ) < Binary64.overflow).trans_le hover
    refine ⟨hsign, fun hlt => ?_, fun hlt => ?_, fun hlt => ?_, fun _ => ?_⟩
    · exact absurd hlt hover.not_gt
    · exact absurd hlt hover.not_gt
    · exact absurd hlt hover.not_gt
    · rw [Nat.le_antisymm (Binary64.nearestCode_le _ _) (not_lt.1 hfin), Binary64.infinity,
        ← decide_signed_neg hpos]

theorem toBinary64_natCast (n : Nat) (negative : Bool) :
    toBinary64 ⟨n, 0⟩ negative = .ofCode negative (nearestCode n 1) := by
  rw [toBinary64_eq]
  exact congrArg (fun p => Binary64.ofCode negative (nearestCode p 1)) (Nat.mul_one n)

end Decimal

end SqlFilter
