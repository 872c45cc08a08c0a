import Mathlib
import SqlFilter.Decimal.Shortest

/-!
# Rounding to the nearest number

The magnitudes of codes follow the order of the codes, and the interval around a magnitude holds
decimals that round to it (`Decimal.toBinary64_of_contains`).
-/

namespace SqlFilter

namespace Binary64

/-! ## Magnitudes -/

theorem fractions_pos : 0 < fractions := by decide

theorem unit_pos : 0 < unit := by decide +kernel

/-- How many units a magnitude is from the next. -/
def gap (code : Nat) : Nat := 2 ^ (code / fractions - 1)

theorem gap_pos (code : Nat) : 0 < gap code := Nat.two_pow_pos _

theorem units_eq {binade fraction : Nat} (h : fraction < fractions) :
    units (binade * fractions + fraction) =
      if binade = 0 then fraction else (fractions + fraction) * 2 ^ (binade - 1) := by
  have hdiv : (binade * fractions + fraction) / fractions = binade := by
    rw [Nat.add_comm, Nat.add_mul_div_right _ _ fractions_pos, Nat.div_eq_of_lt h, Nat.zero_add]
  have hmod : (binade * fractions + fraction) % fractions = fraction := by
    rw [Nat.add_comm, Nat.add_mul_mod_self_right, Nat.mod_eq_of_lt h]
  unfold units
  simp only [hdiv, hmod]
  rfl

theorem gap_eq {binade fraction : Nat} (h : fraction < fractions) :
    gap (binade * fractions + fraction) = 2 ^ (binade - 1) := by
  unfold gap
  rw [Nat.add_comm, Nat.add_mul_div_right _ _ fractions_pos, Nat.div_eq_of_lt h, Nat.zero_add]

/-- A code is a binade and a fraction. -/
theorem exists_binade (code : Nat) : ∃ binade fraction, fraction < fractions ∧
    binade * fractions + fraction = code :=
  ⟨code / fractions, code % fractions, Nat.mod_lt _ fractions_pos, Nat.div_add_mod' _ _⟩

theorem units_succ (code : Nat) : units (code + 1) = units code + gap code := by
  obtain ⟨b, f, hf, rfl⟩ := exists_binade code
  rw [units_eq hf, gap_eq hf]
  by_cases hlast : f + 1 < fractions
  · rw [Nat.add_assoc, units_eq hlast]
    split_ifs with hb
    · rw [hb]
      rfl
    · ring
  · have hsucc : b * fractions + f + 1 = (b + 1) * fractions + 0 := by
      rw [Nat.succ_mul]
      omega
    rw [hsucc, units_eq fractions_pos, if_neg (Nat.succ_ne_zero b), Nat.add_sub_cancel,
      Nat.add_zero]
    have hf' : f + 1 = fractions := by omega
    cases b with
    | zero => simpa using hf'.symm
    | succ b =>
      rw [if_neg (Nat.succ_ne_zero b), Nat.add_sub_cancel, ← hf', Nat.pow_succ]
      ring

theorem units_strictMono : StrictMono units :=
  strictMono_nat_of_lt_succ fun code => by
    rw [units_succ]
    exact Nat.lt_add_of_pos_right (gap_pos code)

/-- The codes of a binade from the second on have magnitudes below twice the least. -/
theorem units_lt (code : Nat) : units code < 2 * fractions * gap code := by
  obtain ⟨b, f, hf, rfl⟩ := exists_binade code
  rw [units_eq hf, gap_eq hf]
  split_ifs with hb
  · rw [hb]
    simp only [Nat.zero_sub, Nat.pow_zero]
    omega
  · exact Nat.mul_lt_mul_of_pos_right (by omega) (Nat.two_pow_pos _)

/-! ## Rounding -/

/-- The first two binades count the units. -/
theorem units_of_lt {n : Nat} (h : n < 2 * fractions) : units n = n := by
  by_cases hn : n < fractions
  · have := @units_eq 0 n hn
    rwa [Nat.zero_mul, Nat.zero_add, if_pos rfl] at this
  · have := @units_eq 1 (n - fractions) (by omega)
    rw [if_neg Nat.one_ne_zero, Nat.one_mul, Nat.sub_self, Nat.pow_zero, Nat.mul_one] at this
    rwa [show fractions + (n - fractions) = n by omega] at this

/-- A number of units in the first two binades is its own code. -/
theorem codeBelow_of_log2_le {n : Nat} (h : n.log2 ≤ fractionBits) : codeBelow n = n := by
  show (n.log2 - fractionBits) * fractions + n / Nat.pow 2 (n.log2 - fractionBits) = n
  rw [Nat.sub_eq_zero_of_le h, Nat.zero_mul, Nat.zero_add]
  exact Nat.div_one n

/-- The first bits of a greater number, the fraction with the bit in front of it, are its code. -/
theorem exists_codeBelow_eq {n : Nat} (h : fractionBits < n.log2) : ∃ s q, fractions ≤ q ∧
    q < 2 * fractions ∧ q * 2 ^ (s + 1) ≤ n ∧ n < (q + 1) * 2 ^ (s + 1) ∧
      codeBelow n = (s + 1 + 1) * fractions + (q - fractions) := by
  obtain ⟨s, hs⟩ : ∃ s, n.log2 = s + 1 + fractionBits := ⟨n.log2 - 1 - fractionBits, by omega⟩
  have hne : n ≠ 0 := by
    rintro rfl
    exact absurd h (by decide)
  have hlt : n < 2 ^ (n.log2 + 1) := Nat.lt_log2_self
  have hge : 2 ^ n.log2 ≤ n := Nat.log2_self_le hne
  have hpow : 2 ^ n.log2 = fractions * 2 ^ (s + 1) := by
    rw [hs, Nat.pow_add, Nat.mul_comm]
    rfl
  rw [Nat.pow_succ, hpow] at hlt
  rw [hpow] at hge
  have hpos : 0 < 2 ^ (s + 1) := Nat.two_pow_pos _
  have hlow : fractions ≤ n / 2 ^ (s + 1) := (Nat.le_div_iff_mul_le hpos).2 hge
  refine ⟨s, n / 2 ^ (s + 1), hlow, ?_, Nat.div_mul_le_self n _,
    Nat.lt_mul_of_div_lt (Nat.lt_succ_self _) hpos, ?_⟩
  · refine (Nat.div_lt_iff_lt_mul hpos).2 ?_
    calc n < fractions * 2 ^ (s + 1) * 2 := hlt
      _ = 2 * fractions * 2 ^ (s + 1) := by ring
  · show (n.log2 - fractionBits) * fractions + n / 2 ^ (n.log2 - fractionBits) = _
    rw [hs, Nat.add_sub_cancel, Nat.succ_mul (s + 1)]
    omega

/-- The magnitude of `codeBelow n` is the greatest that is at most `n`. -/
theorem codeBelow_spec (n : Nat) : units (codeBelow n) ≤ n ∧ n < units (codeBelow n + 1) := by
  by_cases hsmall : n.log2 ≤ fractionBits
  · have hn : n < 2 * fractions := by
      calc n < 2 ^ (n.log2 + 1) := Nat.lt_log2_self
        _ ≤ 2 ^ (fractionBits + 1) := Nat.pow_le_pow_right (by decide) (Nat.succ_le_succ hsmall)
        _ = 2 * fractions := by decide
    have hlt : units n < units (n + 1) := units_strictMono (Nat.lt_succ_self n)
    rw [codeBelow_of_log2_le hsmall]
    rw [units_of_lt hn] at hlt ⊢
    exact ⟨Nat.le_refl n, hlt⟩
  · obtain ⟨s, q, hlow, hhigh, hle, hlt, hcode⟩ := exists_codeBelow_eq (Nat.lt_of_not_le hsmall)
    have hf : q - fractions < fractions := by omega
    rw [hcode, units_succ, units_eq hf, gap_eq hf, if_neg (Nat.succ_ne_zero _), Nat.add_sub_cancel,
      show fractions + (q - fractions) = q by omega]
    rw [Nat.succ_mul] at hlt
    exact ⟨hle, hlt⟩

/-- A code is the greatest with a magnitude of at most `n`, if `n` is below the next. -/
theorem codeBelow_eq {code n : Nat} (hle : units code ≤ n) (hlt : n < units (code + 1)) :
    codeBelow n = code := by
  obtain ⟨hle', hlt'⟩ := codeBelow_spec n
  have h₁ := units_strictMono.lt_iff_lt.1 (Nat.lt_of_le_of_lt hle' hlt)
  have h₂ := units_strictMono.lt_iff_lt.1 (Nat.lt_of_le_of_lt hle hlt')
  omega

/-- A ratio rounds to the code whose interval it lies in. -/
theorem nearestCode_eq {code p d : Nat} (hd : 0 < d) (hpos : 0 < code)
    (hfin : code < infinityCode)
    (hlow : (units (code - 1) + units code) * d ≤ 2 * (p * unit))
    (hhigh : 2 * (p * unit) ≤ (units code + units (code + 1)) * d)
    (heven : (units (code - 1) + units code) * d = 2 * (p * unit) ∨
      2 * (p * unit) = (units code + units (code + 1)) * d → code % 2 = 0) :
    nearestCode p d = code := by
  obtain ⟨c, rfl⟩ : ∃ c, code = c + 1 := ⟨code - 1, by omega⟩
  rw [Nat.add_sub_cancel] at hlow heven
  have hc : units c < units (c + 1) := units_strictMono (Nat.lt_succ_self c)
  have hc' : units (c + 1) < units (c + 2) := units_strictMono (Nat.lt_succ_self _)
  unfold nearestCode
  -- the ratio is rounded down to the code, or up to it from the code below
  by_cases hbelow : units (c + 1) * d ≤ p * unit
  · have hcode : codeBelow (p * unit / d) = c + 1 := by
      refine codeBelow_eq ((Nat.le_div_iff_mul_le hd).2 hbelow) ((Nat.div_lt_iff_lt_mul hd).2 ?_)
      nlinarith
    simp only [hcode]
    rw [if_neg (Nat.not_le.2 hfin), if_pos]
    rcases Nat.lt_or_eq_of_le hhigh with h | h
    · exact .inl h
    · exact .inr ⟨h, heven (.inr h)⟩
  · have hcode : codeBelow (p * unit / d) = c := by
      refine codeBelow_eq ((Nat.le_div_iff_mul_le hd).2 ?_) ((Nat.div_lt_iff_lt_mul hd).2 ?_)
      · nlinarith
      · omega
    simp only [hcode]
    rw [if_neg (by omega), if_neg]
    rintro (h | ⟨h, hodd⟩)
    · omega
    · have := heven (.inl h.symm)
      omega

theorem nearestCode_le (p d : Nat) : nearestCode p d ≤ infinityCode := by
  unfold nearestCode
  dsimp only
  split_ifs <;> omega

/-- A ratio between two neighbouring magnitudes rounds to the nearer one of them, or to infinity. -/
theorem nearestCode_cases (p : Nat) {d : Nat} (hd : 0 < d) :
    ∃ low, units low * d ≤ p * unit ∧ p * unit < units (low + 1) * d ∧
      (infinityCode ≤ low ∧ nearestCode p d = infinityCode ∨
        low < infinityCode ∧ nearestCode p d = low ∧
          (2 * (p * unit) < (units low + units (low + 1)) * d ∨
            2 * (p * unit) = (units low + units (low + 1)) * d ∧ low % 2 = 0) ∨
        low < infinityCode ∧ nearestCode p d = low + 1 ∧
          ¬ (2 * (p * unit) < (units low + units (low + 1)) * d ∨
            2 * (p * unit) = (units low + units (low + 1)) * d ∧ low % 2 = 0)) := by
  obtain ⟨hle, hlt⟩ := codeBelow_spec (p * unit / d)
  refine ⟨codeBelow (p * unit / d), (Nat.le_div_iff_mul_le hd).1 hle,
    (Nat.div_lt_iff_lt_mul hd).1 hlt, ?_⟩
  unfold nearestCode
  dsimp only
  split_ifs with hinf hlow
  · exact .inl ⟨hinf, rfl⟩
  · exact .inr (.inl ⟨Nat.lt_of_not_le hinf, rfl, hlow⟩)
  · exact .inr (.inr ⟨Nat.lt_of_not_le hinf, rfl, hlow⟩)

/-- A ratio of less than half a unit rounds to zero. -/
theorem nearestCode_eq_zero {p d : Nat} (h : 2 * (p * unit) < d) : nearestCode p d = 0 := by
  obtain ⟨low, hle, -, hcases⟩ := nearestCode_cases p (Nat.zero_lt_of_lt h)
  have hlow : low = 0 := by
    by_contra hne
    have hone : 1 ≤ units low := (units_strictMono.monotone (Nat.one_le_iff_ne_zero.2 hne)).trans'
      (units_of_lt (by decide)).ge
    have := Nat.mul_le_mul_right d hone
    omega
  have hinf : 0 < infinityCode := by decide
  rw [hlow, units_of_lt (by decide), units_of_lt (by decide)] at hcases
  omega

/-- The middle between the greatest finite magnitude and the next power of two. -/
def overflow : Nat := 2 ^ 1024 - 2 ^ 970

theorem units_add_units_infinityCode :
    units (infinityCode - 1) + units (infinityCode - 1 + 1) = 2 * (overflow * unit) := by
  decide +kernel

/-- A ratio rounds to a finite number below that middle. -/
theorem nearestCode_lt_iff (p : Nat) {d : Nat} (hd : 0 < d) :
    nearestCode p d < infinityCode ↔ p < overflow * d := by
  have hinf : overflow * unit ≤ units infinityCode := by decide +kernel
  have hlast : units (infinityCode - 1) ≤ overflow * unit := by decide +kernel
  have hodd : (infinityCode - 1) % 2 = 1 := by decide
  have hiff : p * unit < overflow * unit * d ↔ p < overflow * d := by
    rw [Nat.mul_right_comm, Nat.mul_lt_mul_right unit_pos]
  obtain ⟨low, hle, hlt, hcases⟩ := nearestCode_cases p hd
  rw [← hiff]
  obtain hlow | rfl | hlow := Nat.lt_trichotomy low (infinityCode - 1)
  · have hnext : units (low + 1) * d ≤ overflow * unit * d :=
      Nat.mul_le_mul_right d ((units_strictMono.monotone hlow).trans hlast)
    exact iff_of_true (by omega) (hlt.trans_le hnext)
  · rw [units_add_units_infinityCode, Nat.mul_assoc 2] at hcases
    omega
  · have hprev : overflow * unit * d ≤ units low * d :=
      Nat.mul_le_mul_right d (hinf.trans (units_strictMono.monotone (by omega)))
    exact iff_of_false (by omega) (by omega)

end Binary64

/-! ## Decimals -/

namespace Decimal

/-- The numerator of the decimal as a ratio. -/
def numerator (d : Decimal) : Nat := d.digits * 10 ^ d.exponent.toNat

/-- The denominator of the decimal as a ratio. -/
def denominator (d : Decimal) : Nat := 10 ^ (-d.exponent).toNat

theorem denominator_pos (d : Decimal) : 0 < d.denominator := Nat.pow_pos (by decide)

/-- The two decimals are the same number. -/
def Same (d e : Decimal) : Prop := d.numerator * e.denominator = e.numerator * d.denominator

theorem Same.refl (d : Decimal) : d.Same d := rfl

theorem Same.symm {d e : Decimal} (h : d.Same e) : e.Same d := Eq.symm h

theorem Same.trans {d e f : Decimal} (h : d.Same e) (h' : e.Same f) : d.Same f := by
  unfold Same at *
  refine Nat.eq_of_mul_eq_mul_right e.denominator_pos ?_
  calc d.numerator * f.denominator * e.denominator
      = d.numerator * e.denominator * f.denominator := by ring
    _ = e.numerator * f.denominator * d.denominator := by rw [h]; ring
    _ = f.numerator * d.denominator * e.denominator := by rw [h']; ring

/-- Zeros at the end of the digits may move into the exponent. -/
theorem same_mul_pow (digits n : Nat) (exponent : Int) :
    Same ⟨digits * 10 ^ n, exponent⟩ ⟨digits, exponent + n⟩ := by
  unfold Same numerator denominator
  simp only
  obtain ⟨e, rfl | rfl⟩ := exponent.eq_nat_or_neg
  · rw [show ((e : Int) + n).toNat = e + n by omega, Int.toNat_natCast,
      show (-((e : Int) + n)).toNat = 0 by omega, show (-(e : Int)).toNat = 0 by omega]
    ring
  · rw [show (-(e : Int)).toNat = 0 by omega, Int.neg_neg, Int.toNat_natCast]
    rcases Nat.le_total n e with h | h
    · obtain ⟨m, rfl⟩ := Nat.exists_eq_add_of_le h
      rw [show (-((n + m : Nat) : Int) + n).toNat = 0 by omega,
        show (-(-((n + m : Nat) : Int) + n)).toNat = m by omega]
      ring
    · obtain ⟨m, rfl⟩ := Nat.exists_eq_add_of_le h
      rw [show (-(e : Int) + (e + m : Nat)).toNat = m by omega,
        show (-(-(e : Int) + (e + m : Nat))).toNat = 0 by omega]
      ring

/-- Whether a ratio is in the interval does not depend on how it is written. -/
theorem Target.contains_congr (t : Target) {n d n' d' : Nat} (hd : 0 < d) (hd' : 0 < d')
    (h : n * d' = n' * d) : t.contains n d = t.contains n' d' := by
  have hle : ∀ b, b * d ≤ n ↔ b * d' ≤ n' := by
    intro b
    rw [← Nat.mul_le_mul_right_iff hd', h, Nat.mul_right_comm, Nat.mul_le_mul_right_iff hd]
  have hge : ∀ b, n ≤ b * d ↔ n' ≤ b * d' := by
    intro b
    rw [← Nat.mul_le_mul_right_iff hd', h, Nat.mul_right_comm, Nat.mul_le_mul_right_iff hd]
  unfold contains
  simp only [← Nat.not_le, hle, hge]

/-- Whether the decimal lies in the interval. -/
def In (d : Decimal) (t : Target) : Prop :=
  t.contains (2 * Binary64.unit * d.numerator) d.denominator = true

theorem Same.in_iff {d e : Decimal} (h : d.Same e) (t : Target) : d.In t ↔ e.In t := by
  unfold In
  rw [t.contains_congr d.denominator_pos e.denominator_pos]
  rw [Nat.mul_assoc, h, ← Nat.mul_assoc]

/-- The ends of an interval, and the middle of it only if the code is even. -/
theorem Target.contains_iff {t : Target} {n d : Nat} : t.contains n d = true ↔
    t.low * d ≤ n ∧ n ≤ t.high * d ∧ (t.low * d = n ∨ n = t.high * d → t.closed = true) := by
  unfold contains
  cases hc : t.closed
  · simp only [Bool.false_eq_true, if_false, Bool.and_eq_true, decide_eq_true_eq, imp_false]
    omega
  · simp

section

variable {d : Decimal} {code : Nat}

theorem digits_ne_zero_of_in (h : d.In (.ofCode code)) (hpos : 0 < code) : d.digits ≠ 0 := by
  intro hzero
  have hlow := (Target.contains_iff.1 h).1
  have hnum : d.numerator = 0 := by
    unfold numerator
    rw [hzero, Nat.zero_mul]
  rw [hnum, Nat.mul_zero, Nat.le_zero, Nat.mul_eq_zero] at hlow
  have hunits : Binary64.units 0 < Binary64.units code := Binary64.units_strictMono hpos
  simp only [Target.ofCode] at hlow
  have := d.denominator_pos
  omega

theorem lt_pow_length_toDigits (n : Nat) : n < 10 ^ (Nat.toDigits 10 n).length :=
  (Nat.length_toDigits_le_iff (by decide) Nat.length_toDigits_pos).1 (Nat.le_refl _)

theorem pow_length_toDigits_le {n : Nat} (h : n ≠ 0) :
    10 ^ ((Nat.toDigits 10 n).length - 1) ≤ n := by
  obtain hone | hmore := Nat.eq_zero_or_pos ((Nat.toDigits 10 n).length - 1)
  · rw [hone]
    exact Nat.pos_of_ne_zero h
  · by_contra hlt
    have := (Nat.length_toDigits_le_iff (by decide) hmore).2 (Nat.not_le.1 hlt)
    omega

end

/-! ## Decimals that are rounded -/

/-- Decimals that are taken for zero are less than half a unit. -/
theorem lt_denominator_of_reach {d : Decimal} (h : d.reach < -330) :
    2 * (d.numerator * Binary64.unit) < d.denominator := by
  have hdigits := lt_pow_length_toDigits d.digits
  unfold reach at h
  obtain ⟨e, he⟩ : ∃ e, (-d.exponent).toNat = 331 + (Nat.toDigits 10 d.digits).length + e :=
    ⟨(-d.exponent).toNat - (331 + (Nat.toDigits 10 d.digits).length), by omega⟩
  have hexp : d.exponent.toNat = 0 := by omega
  have hbig : 2 * Binary64.unit ≤ 10 ^ 331 := by decide +kernel
  unfold denominator numerator
  rw [he, hexp, Nat.pow_zero, Nat.mul_one, Nat.pow_add, Nat.pow_add]
  have hone : 0 < 10 ^ e := Nat.pow_pos (by decide)
  generalize 10 ^ (Nat.toDigits 10 d.digits).length = l at hdigits
  calc 2 * (d.digits * Binary64.unit) = 2 * Binary64.unit * d.digits := by ring
    _ < 2 * Binary64.unit * l :=
        Nat.mul_lt_mul_of_pos_left hdigits (Nat.mul_pos (by decide) Binary64.unit_pos)
    _ ≤ 10 ^ 331 * l := Nat.mul_le_mul_right l hbig
    _ ≤ 10 ^ 331 * l * 10 ^ e := Nat.le_mul_of_pos_right _ hone

/-- Decimals that are taken for infinity are beyond all finite numbers. -/
theorem overflow_mul_le_of_reach {d : Decimal} (hne : d.digits ≠ 0) (h : 311 ≤ d.reach) :
    Binary64.overflow * d.denominator ≤ d.numerator := by
  have hdigits := pow_length_toDigits_le hne
  have hmax : Binary64.overflow ≤ 10 ^ 310 := by decide +kernel
  refine (Nat.mul_le_mul_right _ hmax).trans ?_
  unfold reach at h
  unfold numerator denominator
  refine Nat.le_trans ?_ (Nat.mul_le_mul_right _ hdigits)
  rw [← Nat.pow_add, ← Nat.pow_add]
  exact Nat.pow_le_pow_right (by decide) (by omega)

/-- A decimal is rounded as a ratio, however small or large it is. -/
theorem toBinary64_eq (d : Decimal) (negative : Bool) : d.toBinary64 negative =
    .ofCode negative (Binary64.nearestCode d.numerator d.denominator) := by
  unfold toBinary64
  split_ifs with hsmall hlarge
  · have hlt : 2 * (d.numerator * Binary64.unit) < d.denominator := by
      obtain hzero | hreach := hsmall
      · rw [numerator, hzero, Nat.zero_mul, Nat.zero_mul]
        exact d.denominator_pos
      · exact lt_denominator_of_reach hreach
    rw [Binary64.nearestCode_eq_zero hlt]
    rfl
  · have hover := overflow_mul_le_of_reach (fun hzero => hsmall (.inl hzero)) hlarge
    have hinf := mt (Binary64.nearestCode_lt_iff _ d.denominator_pos).1 (Nat.not_lt.2 hover)
    rw [Nat.le_antisymm (Binary64.nearestCode_le _ _) (Nat.not_lt.1 hinf)]
    rfl
  · rfl

/-- **A decimal** in the interval of a code is rounded to it. -/
theorem toBinary64_of_in {d : Decimal} {code : Nat} (h : d.In (.ofCode code)) (hpos : 0 < code)
    (hfin : code < Binary64.infinityCode) (negative : Bool) :
    d.toBinary64 negative = .ofCode negative code := by
  obtain ⟨hlow, hhigh, heven⟩ := Target.contains_iff.1 h
  have hcomm : 2 * Binary64.unit * d.numerator = 2 * (d.numerator * Binary64.unit) := by ring
  rw [hcomm] at hlow hhigh heven
  rw [toBinary64_eq, Binary64.nearestCode_eq d.denominator_pos hpos hfin hlow hhigh fun h =>
    of_decide_eq_true (heven h)]

end Decimal

end SqlFilter
