import SqlFilter.Proofs.Decimal.Shortest

/-!
# How many digits are kept

A number with at most fifteen significant digits is its own shortest decimal after it was rounded to
a number that is not too small (`Binary64.IsShortest.eq_of_hasDigits`): two numbers with so few
digits lie on a grid so coarse that the interval has room for one of them only. The shortest decimal
has at most seventeen significant digits (`Decimal.hasDigits_shortest`), so that longer numbers
never are.
-/

namespace SqlFilter

namespace Binary64

/-! ## Gaps -/

theorem gap_mono : Monotone gap := fun _ _ h =>
  Nat.pow_le_pow_right (by decide) (Nat.sub_le_sub_right (Nat.div_le_div_right h) 1)

/-- Above the first binade, a magnitude is many times as large as its distance from the next. -/
theorem fractions_mul_gap_le {code : Nat} (h : fractions ≤ code) :
    fractions * gap code ≤ units code := by
  obtain ⟨b, f, hf, rfl⟩ := exists_binade code
  have hb : b ≠ 0 := by
    rintro rfl
    omega
  rw [units_eq hf, gap_eq hf, if_neg hb]
  exact Nat.mul_le_mul_right _ (Nat.le_add_right _ _)

theorem magnitude_succ (code : Nat) : magnitude (code + 1) = magnitude code + gap code / unit := by
  rw [magnitude, magnitude, units_succ, Nat.cast_add, add_div]

variable {code : Nat} {v w : ℚ}

/-- What is enclosed by a code lies within a gap. -/
theorem Encloses.le_add_gap (hv : Encloses code v) (hw : Encloses code w) (hpos : 0 < code) :
    w ≤ v + gap code / unit := by
  have hnext := magnitude_succ code
  have hprev := magnitude_succ (code - 1)
  rw [Nat.sub_add_cancel hpos] at hprev
  have hmono : (gap (code - 1) : ℚ) / unit ≤ gap code / unit :=
    div_le_div_of_nonneg_right (Nat.cast_le.2 (gap_mono (Nat.sub_le code 1))) unit_pos_rat.le
  obtain ⟨hlow, -, -⟩ := hv
  obtain ⟨-, hhigh, -⟩ := hw
  linarith

/-- Above the first binade, a gap is small in comparison with what the code encloses. -/
theorem Encloses.gap_le (h : Encloses code v) (hcode : fractions ≤ code) :
    10 ^ 15 * (gap code / unit : ℚ) < v := by
  have hpos : 0 < code := fractions_pos.trans_le hcode
  have hgap : (0 : ℚ) < gap code / unit := div_pos (Nat.cast_pos.2 (gap_pos code)) unit_pos_rat
  have hlarge : 4503599627370496 * (gap code / unit : ℚ) ≤ magnitude code := by
    rw [magnitude, ← mul_div_assoc]
    refine div_le_div_of_nonneg_right ?_ unit_pos_rat.le
    exact_mod_cast fractions_mul_gap_le hcode
  have hself := Encloses.le_add_gap h (encloses_magnitude code) hpos
  linarith

/-- A number that is at least one has a code above the first binade. -/
theorem Encloses.fractions_le (h : Encloses code v) (hv : 1 ≤ v) : fractions ≤ code := by
  by_contra hlt
  have hmax : (fractions : ℚ) / unit < 1 := by
    rw [div_lt_one unit_pos_rat]
    exact_mod_cast (by decide +kernel : fractions < unit)
  have hlast : magnitude fractions = fractions / unit := by
    rw [magnitude, units_of_lt (by decide)]
  have hnext := magnitude_strictMono.monotone (Nat.lt_of_not_le hlt)
  have hcode := magnitude_strictMono (Nat.lt_succ_self code)
  obtain ⟨-, hhigh, -⟩ := h
  rw [Nat.succ_eq_add_one] at hnext hcode
  linarith

end Binary64

namespace Decimal

open Binary64 (Encloses fractions gap unit)

/-! ## Fifteen digits -/

section Fifteen

variable {code : Nat} (hcode : fractions ≤ code) {a b : Nat} {k : Int}

include hcode

/-- Of two points of a grid that a code encloses, none with few digits is below the other. -/
theorem not_lt_of_encloses (ha : Encloses code (value ⟨a, k⟩)) (hb : Encloses code (value ⟨b, k⟩))
    (hfew : a < 10 ^ 15) : ¬ a < b := by
  intro hlt
  have hnext : value ⟨a, k⟩ + 10 ^ k ≤ value ⟨b, k⟩ := by
    rw [← value_one, value_add]
    exact (value_strictMono k).monotone hlt
  have hgap := ha.le_add_gap hb (Binary64.fractions_pos.trans_le hcode)
  have hlarge := ha.gap_le hcode
  have hsmall : value ⟨a, k⟩ < 10 ^ 15 * 10 ^ k := by
    refine (value_strictMono k hfew).trans_eq ?_
    dsimp only
    rw [value_ten_pow, zpow_add₀ (by norm_num), zpow_natCast, mul_comm]
  linarith

/-- A decimal of fifteen digits is enclosed with no other one that ends at its last digit or before
it. -/
theorem value_eq_of_encloses {d e : Decimal} (hle : d.exponent ≤ e.exponent)
    (hd : Encloses code d.value) (he : Encloses code e.value) (hfew : d.digits < 10 ^ 15) :
    d.value = e.value := by
  have hsame := same_mul_pow e.digits (e.exponent - d.exponent).toNat d.exponent
  rw [Int.toNat_of_nonneg (by omega), add_sub_cancel] at hsame
  have hvalue : e.value = value ⟨e.digits * 10 ^ (e.exponent - d.exponent).toNat, d.exponent⟩ :=
    (same_iff.1 hsame).symm
  rw [hvalue] at he ⊢
  obtain hlt | heq | hlt := Nat.lt_trichotomy d.digits
    (e.digits * 10 ^ (e.exponent - d.exponent).toNat)
  · exact absurd hlt (not_lt_of_encloses hcode hd he hfew)
  · rw [← heq]
  · exact absurd hlt (not_lt_of_encloses hcode he hd (hlt.trans hfew))

end Fifteen

end Decimal

/-- **Fifteen digits are kept.** A number of so many significant digits is the shortest decimal of
what it is rounded to, if that is not too small. -/
theorem Binary64.IsShortest.eq_of_hasDigits {x : Binary64} {q v : ℚ} (h : x.IsShortest q)
    (hfin : x.isFinite = true) (hcode : fractions ≤ x.code) (hv : x.IsNearest v)
    (hdigits : Decimal.HasDigits v 15) : q = v := by
  obtain ⟨d, hd, hqd⟩ := h.fewest v 15 hv hdigits
  obtain ⟨e, he, hve⟩ := hdigits
  have hdin := h.isNearest.encloses hfin
  have hein := hv.encloses hfin
  rw [hqd] at hdin
  rw [hve] at hein
  refine h.isNearest.sign.eq_of_abs_eq hv.sign ?_
  rw [hqd, hve]
  obtain hle | hle := Int.le_total d.exponent e.exponent
  · exact Decimal.value_eq_of_encloses hcode hle hdin hein hd
  · exact (Decimal.value_eq_of_encloses hcode hle hein hdin he).symm

/-- **Seventeen digits** are all that is written. -/
theorem Decimal.hasDigits_shortest (tie : Tie) (code : Nat) :
    HasDigits (shortest tie code).value 17 := by
  obtain rfl | hpos := Nat.eq_zero_or_pos code
  · exact hasDigits_value (by decide) (Nat.zero_le _) 0
  · obtain ⟨n, hn, hdigits, -⟩ := shortest_spec tie hpos
    exact hdigits.mono hn

end SqlFilter
