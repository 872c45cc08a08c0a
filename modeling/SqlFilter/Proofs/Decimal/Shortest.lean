import SqlFilter.Proofs.Decimal.Nearest
import SqlFilter.Proofs.Decimal.RoundTrip

/-!
# The shortest decimal

What is written of a finite number is a shortest decimal of it (`Decimal.isShortest_shortest`): it
is read as the number, no decimal that is read so has fewer digits, and none with as few digits is
nearer to the number.
-/

namespace SqlFilter

/-- The number has at most `k` significant digits. -/
def Decimal.HasDigits (q : ℚ) (k : Nat) : Prop := ∃ d : Decimal, d.digits < 10 ^ k ∧ |q| = d.value

/-- Of the decimals that are read as the number, none has fewer digits, and none with as few digits
is nearer. -/
structure Binary64.IsShortest (x : Binary64) (q : ℚ) : Prop where
  isNearest : x.IsNearest q
  fewest : ∀ (v : ℚ) (k : Nat), x.IsNearest v → Decimal.HasDigits v k → Decimal.HasDigits q k
  nearest : ∀ v : ℚ, x.IsNearest v → (∀ k, Decimal.HasDigits q k → Decimal.HasDigits v k) →
    |x.value - q| ≤ |x.value - v|

namespace Binary64

variable {code : Nat}

theorem encloses_magnitude (code : Nat) : Encloses code (magnitude code) := by
  have hnext := magnitude_strictMono (Nat.lt_succ_self code)
  obtain rfl | hpos := Nat.eq_zero_or_pos code
  · refine ⟨?_, ?_, fun _ => rfl⟩
    · rw [← two_mul]
    · linarith
  · have hprev := magnitude_strictMono (Nat.sub_one_lt_of_lt hpos)
    refine ⟨by linarith, by linarith, ?_⟩
    rintro (heq | heq)
    · linarith
    · linarith

theorem Encloses.of_between {a b m : ℚ} (ha : Encloses code a) (hb : Encloses code b)
    (ham : a ≤ m) (hmb : m ≤ b) : Encloses code m := by
  obtain ⟨hlow, -, heven⟩ := ha
  obtain ⟨-, hhigh, heven'⟩ := hb
  refine ⟨by linarith, by linarith, ?_⟩
  rintro (heq | heq)
  · exact heven (.inl (by linarith))
  · exact heven' (.inr (by linarith))

end Binary64

namespace Decimal

open Binary64 (units unit magnitude Encloses infinityCode)

/-! ## Points of a grid -/

theorem value_strictMono (k : Int) : StrictMono fun v => value ⟨v, k⟩ := fun _ _ h =>
  mul_lt_mul_of_pos_right (Nat.cast_lt.2 h) (by positivity)

theorem value_le_iff {u v : Nat} {k : Int} : value ⟨v, k⟩ ≤ (u : ℚ) / unit ↔
    v * (unit * 10 ^ k.toNat) ≤ u * 10 ^ (-k).toNat := by
  rw [value_eq, Binary64.le_cast_div_unit_iff (denominator_pos _), numerator, Nat.mul_assoc,
    Nat.mul_comm unit]
  rfl

theorem le_value_iff {u v : Nat} {k : Int} : (u : ℚ) / unit ≤ value ⟨v, k⟩ ↔
    u * 10 ^ (-k).toNat ≤ v * (unit * 10 ^ k.toNat) := by
  rw [value_eq, Binary64.cast_div_unit_le_iff (denominator_pos _), numerator, Nat.mul_assoc,
    Nat.mul_comm unit]
  rfl

theorem two_mul_magnitude (code : Nat) : 2 * magnitude code = (2 * units code : Nat) / unit := by
  rw [two_mul, Binary64.magnitude_add, Nat.two_mul]

theorem value_add (v w : Nat) (k : Int) : value ⟨v, k⟩ + value ⟨w, k⟩ = value ⟨v + w, k⟩ := by
  rw [value, value, value, ← add_mul, Nat.cast_add]

theorem value_ten_pow (m : Nat) (e : Int) : value ⟨10 ^ m, e⟩ = 10 ^ (e + m) := by
  rw [value, zpow_add₀ (by norm_num), zpow_natCast, mul_comm, Nat.cast_pow, Nat.cast_ofNat]

theorem value_one (e : Int) : value ⟨1, e⟩ = 10 ^ e := by rw [value, Nat.cast_one, one_mul]

/-- The last point of a grid that is not above the magnitude. -/
def pointBelow (code : Nat) (k : Int) : Nat :=
  (Target.ofCode code).value * 10 ^ (-k).toNat / (2 * (unit * 10 ^ k.toNat))

section Points

variable (code : Nat) (k : Int)

theorem pointBelow_mul_le :
    pointBelow code k * (2 * (unit * 10 ^ k.toNat)) ≤ 2 * units code * 10 ^ (-k).toNat :=
  Nat.div_mul_le_self _ _

theorem lt_pointBelow_succ_mul : 2 * units code * 10 ^ (-k).toNat <
    (pointBelow code k + 1) * (2 * (unit * 10 ^ k.toNat)) :=
  Nat.lt_mul_of_div_lt (Nat.lt_succ_self _)
    (Nat.mul_pos (by decide) (Nat.mul_pos Binary64.unit_pos (Nat.pow_pos (by decide))))

theorem value_pointBelow_le : value ⟨pointBelow code k, k⟩ ≤ magnitude code := by
  have hle := pointBelow_mul_le code k
  rw [Nat.mul_left_comm, Nat.mul_assoc 2] at hle
  rw [magnitude, value_le_iff]
  exact Nat.le_of_mul_le_mul_left hle (by decide)

theorem lt_value_pointBelow_succ : magnitude code < value ⟨pointBelow code k + 1, k⟩ := by
  have hlt := lt_pointBelow_succ_mul code k
  rw [Nat.mul_left_comm, Nat.mul_assoc 2] at hlt
  rw [← not_le, magnitude, value_le_iff, not_le]
  exact Nat.lt_of_mul_lt_mul_left hlt

end Points

section Grid

variable {code : Nat} {k : Int} {g : Nat} {tie : Tie}

/-- A point that is found is not behind the one after the magnitude, and none of the two around the
magnitude that lie in the interval is nearer. -/
theorem onGrid_spec (h : (Target.ofCode code).onGrid tie k = some g) :
    g ≤ pointBelow code k + 1 ∧
      (In ⟨pointBelow code k, k⟩ (.ofCode code) →
        |value ⟨g, k⟩ - magnitude code| ≤ |value ⟨pointBelow code k, k⟩ - magnitude code|) ∧
      (In ⟨pointBelow code k + 1, k⟩ (.ofCode code) →
        |value ⟨g, k⟩ - magnitude code| ≤ |value ⟨pointBelow code k + 1, k⟩ - magnitude code|) := by
  have hlt : value ⟨pointBelow code k, k⟩ < value ⟨pointBelow code k + 1, k⟩ :=
    value_strictMono k (Nat.lt_succ_self _)
  have hvalue : (Target.ofCode code).value = 2 * units code := rfl
  have hcases := onGrid_outcomes rfl rfl (show _ = pointBelow code k from rfl) h
  rw [hvalue, Nat.mul_left_comm (pointBelow code k + (pointBelow code k + 1))] at hcases
  simp only [in_iff_contains]
  obtain ⟨rfl, -, hother⟩ | ⟨rfl, -, hother⟩ := hcases
  · refine ⟨Nat.le_succ _, fun _ => le_rfl, fun habove => ?_⟩
    rw [abs_sub_le_abs_sub_iff_of_lt hlt, two_mul_magnitude, value_add, le_value_iff]
    exact Nat.le_of_mul_le_mul_left (hother habove) (by decide)
  · refine ⟨le_rfl, fun hbelow => ?_, fun _ => le_rfl⟩
    rw [abs_sub_le_abs_sub_iff_of_gt hlt, two_mul_magnitude, add_comm, value_add, value_le_iff]
    exact Nat.le_of_mul_le_mul_left (hother hbelow) (by decide)

/-- A point of the grid that lies in the interval has one of the two around the magnitude on its
side. -/
theorem in_pointBelow_or_succ {v : Nat} (h : In ⟨v, k⟩ (.ofCode code)) :
    In ⟨pointBelow code k, k⟩ (.ofCode code) ∧
        |value ⟨pointBelow code k, k⟩ - magnitude code| ≤ |value ⟨v, k⟩ - magnitude code| ∨
      In ⟨pointBelow code k + 1, k⟩ (.ofCode code) ∧
        |value ⟨pointBelow code k + 1, k⟩ - magnitude code| ≤ |value ⟨v, k⟩ - magnitude code| := by
  have hself := Binary64.encloses_magnitude code
  have hle := value_pointBelow_le code k
  have hlt := lt_value_pointBelow_succ code k
  simp only [in_iff] at h ⊢
  obtain hv | hv := Nat.lt_or_ge (pointBelow code k) v
  · have hpoint := (value_strictMono k).monotone hv
    refine .inr ⟨hself.of_between h hlt.le hpoint, ?_⟩
    rw [abs_of_pos (sub_pos.2 hlt), abs_of_pos (sub_pos.2 (hlt.trans_le hpoint))]
    exact sub_le_sub_right hpoint _
  · have hpoint := (value_strictMono k).monotone hv
    refine .inl ⟨h.of_between hself hpoint hle, ?_⟩
    rw [abs_of_nonpos (sub_nonpos.2 hle), abs_of_nonpos (sub_nonpos.2 (hpoint.trans hle))]
    exact neg_le_neg (sub_le_sub_right hpoint _)

/-- No point of the grid that lies in the interval is nearer than the one that is found. -/
theorem abs_sub_le_of_onGrid (h : (Target.ofCode code).onGrid tie k = some g) {v : Nat}
    (hv : In ⟨v, k⟩ (.ofCode code)) :
    |value ⟨g, k⟩ - magnitude code| ≤ |value ⟨v, k⟩ - magnitude code| := by
  obtain ⟨-, hbelow, habove⟩ := onGrid_spec h
  obtain ⟨hin, hle⟩ | ⟨hin, hle⟩ := in_pointBelow_or_succ hv
  · exact (hbelow hin).trans hle
  · exact (habove hin).trans hle

/-- A grid with a point in the interval has one that is found. -/
theorem exists_onGrid_of_in (tie : Tie) {v : Nat} (hv : In ⟨v, k⟩ (.ofCode code)) :
    ∃ digits, (Target.ofCode code).onGrid tie k = some digits := by
  refine exists_onGrid rfl rfl ((in_pointBelow_or_succ hv).imp ?_ ?_)
  · rintro ⟨hin, -⟩
    exact in_iff_contains.1 hin
  · rintro ⟨hin, -⟩
    exact in_iff_contains.1 hin

end Grid

/-! ## The leading power -/

theorem isPower_iff {code : Nat} {power : Int} :
    IsPower (units code) power ↔ (10 : ℚ) ^ power ≤ magnitude code := by
  rw [← value_one, magnitude, value_le_iff, Nat.one_mul]
  rfl

theorem leadingPower_spec {code : Nat} (hpos : 0 < code) :
    (10 : ℚ) ^ leadingPower (units code) ≤ magnitude code ∧
      magnitude code < 10 ^ (leadingPower (units code) + 1) := by
  have hunits : units 0 < units code := Binary64.units_strictMono hpos
  have h := isPower_leadingPower (show units code ≠ 0 by omega)
  rwa [isPower_iff, isPower_iff, not_le] at h

/-! ## Significant digits -/

theorem HasDigits.mono {q : ℚ} {j k : Nat} (h : HasDigits q j) (hjk : j ≤ k) : HasDigits q k := by
  obtain ⟨d, hd, hq⟩ := h
  exact ⟨d, hd.trans_le (Nat.pow_le_pow_right (by decide) hjk), hq⟩

theorem hasDigits_signed_iff {d : Decimal} {negative : Bool} {k : Nat} :
    HasDigits (d.signed negative) k ↔ HasDigits d.value k := by
  rw [HasDigits, HasDigits, abs_signed, abs_of_nonneg d.value_nonneg]

/-- A power of ten has one digit, so that the bound `10 ^ k` itself need not be excluded. -/
theorem hasDigits_value {g k : Nat} (hk : 0 < k) (hg : g ≤ 10 ^ k) (e : Int) :
    HasDigits (value ⟨g, e⟩) k := by
  obtain hlt | rfl := Nat.lt_or_eq_of_le hg
  · exact ⟨⟨g, e⟩, hlt, abs_of_nonneg (value_nonneg _)⟩
  · refine ⟨⟨1, e + k⟩, Nat.one_lt_pow hk.ne' (by decide), ?_⟩
    rw [abs_of_nonneg (value_nonneg _), value_ten_pow, value_one]

section Fewest

variable {code : Nat} (hpos : 0 < code) {d : Decimal} (hin : d.In (.ofCode code)) {j : Nat}

include hpos hin

/-- A decimal of few digits in the interval gives a point of a grid as coarse. -/
theorem exists_point_of_in (hj : d.digits < 10 ^ (j + 1)) : ∃ i ≤ j, ∃ v : Nat,
    In ⟨v, leadingPower (units code) - i⟩ (.ofCode code) ∧
      |value ⟨v, leadingPower (units code) - i⟩ - magnitude code| ≤
        |d.value - magnitude code| := by
  obtain ⟨hpower, -⟩ := leadingPower_spec hpos
  generalize leadingPower (units code) = power at hpower ⊢
  obtain hle | hlt := le_or_gt ((10 : ℚ) ^ power) d.value
  · have hexp : power - j ≤ d.exponent := by
      have hten : (10 : ℚ) ^ power < 10 ^ ((j + 1 : Nat) + d.exponent) := by
        rw [zpow_add₀ (by norm_num), zpow_natCast]
        refine hle.trans_lt (mul_lt_mul_of_pos_right ?_ (by positivity))
        exact_mod_cast hj
      have := (zpow_lt_zpow_iff_right₀ (by norm_num)).1 hten
      omega
    have hsame := same_mul_pow d.digits (d.exponent - (power - j)).toNat (power - j)
    rw [Int.toNat_of_nonneg (by omega), add_sub_cancel] at hsame
    refine ⟨j, le_rfl, _, (hsame.in_iff _).2 hin, ?_⟩
    rw [same_iff.1 hsame]
  -- the decimal is below the leading power, which is nearer then
  · refine ⟨0, Nat.zero_le j, 1, ?_, ?_⟩
    · rw [Nat.cast_zero, sub_zero, in_iff, value_one]
      exact (in_iff.1 hin).of_between (Binary64.encloses_magnitude code) hlt.le hpower
    · rw [Nat.cast_zero, sub_zero, value_one, abs_sub_le_abs_sub_iff_of_gt hlt]
      linarith

end Fewest

/-- The shortest decimal has the fewest digits of the decimals in the interval, seventeen at most,
and none of those with as few digits is nearer. -/
theorem shortest_spec (tie : Tie) {code : Nat} (hpos : 0 < code) : ∃ n < 17,
    HasDigits (shortest tie code).value (n + 1) ∧
      ∀ d : Decimal, d.In (.ofCode code) → (∀ k, d.digits < 10 ^ k → n < k) ∧
        (d.digits < 10 ^ (n + 1) →
          |(shortest tie code).value - magnitude code| ≤ |d.value - magnitude code|) := by
  obtain ⟨n, g, hn, hgrid, hshortest, hnone⟩ := exists_shortest_eq tie hpos
  obtain ⟨hg, -⟩ := onGrid_spec hgrid
  obtain ⟨-, hpower⟩ := leadingPower_spec hpos
  rw [hshortest, ← same_iff.1 (same_stripZeros 20 _)]
  have hcoarse : ∀ d : Decimal, d.In (.ofCode code) → ∀ j, d.digits < 10 ^ (j + 1) → n ≤ j ∧
      (j = n → |value ⟨g, leadingPower (units code) - n⟩ - magnitude code| ≤
        |d.value - magnitude code|) := by
    intro d hin j hj
    obtain ⟨i, hij, v, hv, hle⟩ := exists_point_of_in hpos hin hj
    have hni : n ≤ i := by
      by_contra hlt
      obtain ⟨digits, hdigits⟩ := exists_onGrid_of_in tie hv
      rw [hnone i (not_le.1 hlt)] at hdigits
      cases hdigits
    refine ⟨hni.trans hij, ?_⟩
    rintro rfl
    obtain rfl := Nat.le_antisymm hij hni
    exact (abs_sub_le_of_onGrid hgrid hv).trans hle
  refine ⟨n, hn, hasDigits_value (Nat.succ_pos n) ?_ _, fun d hin => ⟨fun k hk => ?_, fun hd => ?_⟩⟩
  · refine hg.trans ((value_strictMono (leadingPower (units code) - n)).lt_iff_lt.1 ?_)
    refine (value_pointBelow_le code _).trans_lt (hpower.trans_eq ?_)
    generalize leadingPower (units code) = power
    rw [value_ten_pow, show power - n + (n + 1 : Nat) = power + 1 by omega]
  · cases k with
    | zero => exact absurd (Nat.lt_one_iff.1 hk) (digits_ne_zero_of_in hin hpos)
    | succ j => exact Nat.lt_succ_of_le (hcoarse d hin j hk).1
  · exact (hcoarse d hin n hd).2 rfl

/-- **What is written** of a finite number is a shortest decimal of it. -/
theorem isShortest_shortest (tie : Tie) {x : Binary64} (hfin : x.isFinite = true) :
    x.IsShortest ((shortest tie x.code).signed x.negative) := by
  have hsign : x.SameSign ((shortest tie x.code).signed x.negative) := decide_signed_neg
  have hdist := hsign.abs_value_sub
  rw [abs_signed] at hdist
  obtain hzero | hpos := Nat.eq_zero_or_pos x.code.val
  · have hself : magnitude x.code = (shortest tie x.code).value := by
      rw [hzero, Binary64.magnitude_zero, shortest, if_pos rfl, value_natCast, Nat.cast_zero]
    refine ⟨Binary64.Encloses.isNearest hfin ?_ hsign, fun v k _ _ => ?_, fun v _ _ => ?_⟩
    · rw [abs_signed, ← hself]
      exact Binary64.encloses_magnitude _
    · refine ⟨⟨0, 0⟩, Nat.pow_pos (by decide), ?_⟩
      rw [abs_signed, hzero]
      rfl
    · rw [hdist, hself, sub_self, abs_zero]
      exact abs_nonneg _
  · obtain ⟨n, -, hmany, hfewest⟩ := shortest_spec tie hpos
    rw [← @hasDigits_signed_iff _ x.negative] at hmany
    refine ⟨Binary64.Encloses.isNearest hfin ?_ hsign, fun v k hv hdigits => ?_,
      fun v hv hfew => ?_⟩
    · rw [abs_signed]
      exact in_iff.1 (shortest_in tie hpos)
    · obtain ⟨d, hd, hvd⟩ := hdigits
      have hlt := (hfewest d (in_iff.2 (hvd ▸ hv.encloses hfin))).1 k hd
      exact hmany.mono hlt
    · obtain ⟨d, hd, hvd⟩ := hfew (n + 1) hmany
      have hle := (hfewest d (in_iff.2 (hvd ▸ hv.encloses hfin))).2 hd
      rw [hdist, hv.sign.abs_value_sub, hvd, abs_sub_comm, abs_sub_comm (magnitude _)]
      exact hle

end Decimal

end SqlFilter
