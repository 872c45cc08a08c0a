import SqlFilter.Decimal.Layout
import SqlFilter.Proofs.Decimal.Rounding
import SqlFilter.Proofs.Token.Numeral

/-!
# Numbers are read back

The shortest decimal of a finite number lies in the interval of the number: a grid of seventeen
digits is finer than the distance of neighbouring magnitudes, and a point of it lies in the interval
for that reason. Its text denotes the same decimal in every layout, so that the number that is read
from the text is the number itself (`Binary64.read_text`).
-/

namespace SqlFilter

namespace Binary64

/-- A magnitude is as far from the one before it as from the one after it, or it is the least of its
binade. -/
theorem gap_pred {code : Nat} (h : 0 < code) :
    gap (code - 1) = gap code ∨ units code = fractions * gap code := by
  obtain ⟨b, f, hf, rfl⟩ := exists_binade code
  cases f with
  | zero =>
    cases b with
    | zero => exact absurd h (by decide)
    | succ b =>
      refine .inr ?_
      rw [units_eq hf, gap_eq hf, if_neg (Nat.succ_ne_zero b), Nat.add_zero]
  | succ f =>
    refine .inl ?_
    rw [gap_eq hf, ← Nat.add_assoc, Nat.add_sub_cancel, gap_eq (by omega)]

end Binary64

namespace Decimal

open Binary64 (units gap unit fractions infinityCode)

/-! ## The grid of seventeen digits -/

/-- A power of ten at most as large as the magnitude. -/
def IsPower (magnitude : Nat) (power : Int) : Prop :=
  unit * 10 ^ power.toNat ≤ magnitude * 10 ^ (-power).toNat

/-- The leading power of a magnitude below one is found. -/
theorem exists_leadingPower_eq {magnitude : Nat} (h : magnitude ≠ 0) (hunit : magnitude < unit) :
    ∃ j : Nat, leadingPower magnitude = -j ∧ unit ≤ magnitude * 10 ^ j ∧
      ∀ i < j, magnitude * 10 ^ i < unit := by
  unfold leadingPower
  rw [if_neg (Nat.not_le.2 hunit)]
  split
  · next j hj =>
    obtain ⟨hle, -, hlt⟩ := List.find?_range_eq_some.1 hj
    refine ⟨j, rfl, of_decide_eq_true hle, fun i hi => ?_⟩
    simpa using hlt i hi
  · next hnone =>
    have hlt := List.find?_eq_none.1 hnone 329 (List.mem_range.2 (by decide))
    have hbig : unit ≤ Nat.pow 10 329 := by decide +kernel
    have hmul : ∀ n, n ≤ magnitude * n := fun n =>
      Nat.le_mul_of_pos_left n (Nat.pos_of_ne_zero h)
    exact absurd (decide_eq_true (hbig.trans (hmul (Nat.pow 10 329)))) hlt

/-- The leading power is the greatest power of ten at most as large as the magnitude. -/
theorem isPower_leadingPower {magnitude : Nat} (h : magnitude ≠ 0) :
    IsPower magnitude (leadingPower magnitude) ∧
      ¬ IsPower magnitude (leadingPower magnitude + 1) := by
  unfold IsPower
  obtain hunit | hunit := Nat.lt_or_ge magnitude unit
  · obtain ⟨j, hj, hle, hlt⟩ := exists_leadingPower_eq h hunit
    have hpos : j ≠ 0 := by
      rintro rfl
      omega
    rw [hj, show (-(j : Int)).toNat = 0 by omega, show (-(-(j : Int))).toNat = j by omega,
      show (-(j : Int) + 1).toNat = 0 by omega, show (-(-(j : Int) + 1)).toNat = j - 1 by omega,
      Nat.pow_zero, Nat.mul_one]
    exact ⟨hle, Nat.not_le.2 (hlt _ (Nat.sub_one_lt hpos))⟩
  · have hq : magnitude / unit ≠ 0 := (Nat.div_pos hunit Binary64.unit_pos).ne'
    have hlen : 0 < (Nat.toDigits 10 (magnitude / unit)).length := Nat.length_toDigits_pos
    have hle := pow_length_toDigits_le hq
    have hlt := lt_pow_length_toDigits (magnitude / unit)
    rw [leadingPower, if_pos hunit]
    generalize (Nat.toDigits 10 (magnitude / unit)).length = length at hlen hle hlt
    rw [show (length - 1 : Int).toNat = length - 1 by omega,
      show (-(length - 1 : Int)).toNat = 0 by omega,
      show (length - 1 + 1 : Int).toNat = length by omega,
      show (-(length - 1 + 1 : Int)).toNat = 0 by omega, Nat.pow_zero, Nat.mul_one, Nat.not_le]
    refine ⟨?_, ?_⟩
    · exact (Nat.mul_le_mul_left unit hle).trans (Nat.mul_div_le magnitude unit)
    · rwa [Nat.mul_comm, ← Nat.div_lt_iff_lt_mul Binary64.unit_pos]

/-- Seventeen digits make steps so small that a magnitude has more than `10 ^ 16` of them. -/
theorem step_le {magnitude : Nat} {power : Int} (h : IsPower magnitude power) :
    unit * 10 ^ (power - 16).toNat * 10 ^ 16 ≤ magnitude * 10 ^ (-(power - 16)).toNat := by
  unfold IsPower at h
  generalize unit = u at h ⊢
  rcases Int.lt_or_le power 16 with hlt | hle
  · rw [show (power - 16).toNat = 0 by omega, Nat.pow_zero, Nat.mul_one]
    rcases Int.lt_or_le power 0 with hneg | hpos
    · rw [show power.toNat = 0 by omega, Nat.pow_zero, Nat.mul_one] at h
      rw [show (-(power - 16)).toNat = (-power).toNat + 16 by omega, Nat.pow_add, ← Nat.mul_assoc]
      exact Nat.mul_le_mul_right _ h
    · rw [show (-power).toNat = 0 by omega, Nat.pow_zero, Nat.mul_one] at h
      calc u * 10 ^ 16 = u * 10 ^ power.toNat * 10 ^ (-(power - 16)).toNat := by
            rw [Nat.mul_assoc, ← Nat.pow_add]
            congr 2
            omega
        _ ≤ magnitude * 10 ^ (-(power - 16)).toNat := Nat.mul_le_mul_right _ h
  · rw [show (-power).toNat = 0 by omega, Nat.pow_zero, Nat.mul_one] at h
    rw [show (-(power - 16)).toNat = 0 by omega, Nat.pow_zero, Nat.mul_one, Nat.mul_assoc,
      ← Nat.pow_add, show (power - 16).toNat + 16 = power.toNat by omega]
    exact h

/-- One of the two points around a magnitude lies in its interval, if the grid is as fine as that
of seventeen digits. -/
theorem contains_below_or_above {code : Nat} (hpos : 0 < code) {step d below : Nat} (hd : 0 < d)
    (hstep : step * 10 ^ 16 ≤ units code * d) (hle : below * (2 * step) ≤ 2 * units code * d)
    (hlt : 2 * units code * d < (below + 1) * (2 * step)) :
    (Target.ofCode code).contains (below * (2 * step)) d = true ∨
      (Target.ofCode code).contains ((below + 1) * (2 * step)) d = true := by
  obtain ⟨c, rfl⟩ : ∃ c, code = c + 1 := ⟨code - 1, by omega⟩
  have hprev : units (c + 1) = units c + gap c := Binary64.units_succ c
  have hnext : units (c + 2) = units (c + 1) + gap (c + 1) := Binary64.units_succ (c + 1)
  have hlow : (units c + units (c + 1)) * d + gap c * d = 2 * (units (c + 1) * d) := by
    rw [hprev]
    ring
  have hhigh : (units (c + 1) + units (c + 2)) * d =
      2 * (units (c + 1) * d) + gap (c + 1) * d := by
    rw [hnext]
    ring
  have hsize : units (c + 1) * d < 2 * fractions * (gap (c + 1) * d) := by
    rw [← Nat.mul_assoc]
    exact Nat.mul_lt_mul_of_pos_right (Binary64.units_lt (c + 1)) hd
  have hgap : gap c * d = gap (c + 1) * d ∨
      units (c + 1) * d = fractions * (gap (c + 1) * d) := by
    refine (Binary64.gap_pred hpos).imp (fun h => congrArg (· * d) h) fun h => ?_
    rw [h, Nat.mul_assoc]
  have hc : 0 < gap c * d := Nat.mul_pos (Binary64.gap_pos c) hd
  have hc' : 0 < gap (c + 1) * d := Nat.mul_pos (Binary64.gap_pos (c + 1)) hd
  rw [Nat.mul_assoc] at hle hlt
  have hsucc : (below + 1) * (2 * step) = below * (2 * step) + 2 * step := by ring
  rw [hsucc] at hlt ⊢
  simp only [Target.contains_iff, Target.ofCode, Nat.add_sub_cancel]
  rw [show fractions = 4503599627370496 from rfl] at hsize hgap
  -- Either point is nearer than half a gap where the gaps agree, else the upper one is.
  generalize below * (2 * step) = b at *
  generalize (units c + units (c + 1)) * d = low at *
  generalize (units (c + 1) + units (c + 1 + 1)) * d = high at *
  generalize units (c + 1) * d = x at *
  generalize gap c * d = g at *
  generalize gap (c + 1) * d = g' at *
  omega

section OnGrid

variable {t : Target} {tie : Tie} {k : Int} {digits step d : Nat}

theorem onGrid_step_eq (hstep : step = unit * 10 ^ k.toNat) :
    2 * unit * Nat.pow 10 k.toNat = 2 * step := by
  rw [hstep, ← Nat.mul_assoc]
  rfl

/-- A point that is found on a grid is one of the two around the magnitude, the nearer one if both
lie in the interval. -/
theorem onGrid_outcomes (hstep : step = unit * 10 ^ k.toNat) (hd : d = 10 ^ (-k).toNat)
    {below : Nat} (hbelow : t.value * d / (2 * step) = below)
    (h : t.onGrid tie k = some digits) :
    digits = below ∧ t.contains (below * (2 * step)) d = true ∧
        (t.contains ((below + 1) * (2 * step)) d = true →
          2 * (t.value * d) ≤ (below + (below + 1)) * (2 * step)) ∨
      digits = below + 1 ∧ t.contains ((below + 1) * (2 * step)) d = true ∧
        (t.contains (below * (2 * step)) d = true →
          (below + (below + 1)) * (2 * step) ≤ 2 * (t.value * d)) := by
  have hd' : Nat.pow 10 (-k).toNat = d := hd.symm
  have hpos : 0 < 2 * step := by
    rw [hstep]
    exact Nat.mul_pos (by decide) (Nat.mul_pos Binary64.unit_pos (Nat.pow_pos (by decide)))
  have hle := Nat.div_mul_le_self (t.value * d) (2 * step)
  have hlt := Nat.lt_mul_of_div_lt (Nat.lt_succ_self (t.value * d / (2 * step))) hpos
  unfold Target.onGrid at h
  simp only [onGrid_step_eq hstep, hd', hbelow] at h
  rw [hbelow] at hle hlt
  rw [Nat.succ_eq_add_one] at hlt
  rw [Nat.add_mul below (below + 1)]
  split at h
  · next hb ha =>
    obtain rfl := Option.some.inj h
    exact .inl ⟨rfl, hb, fun ha' => absurd (ha.symm.trans ha') Bool.false_ne_true⟩
  · next hb ha =>
    obtain rfl := Option.some.inj h
    exact .inr ⟨rfl, ha, fun hb' => absurd (hb.symm.trans hb') Bool.false_ne_true⟩
  · cases h
  -- both points are in the interval: the closer one is taken, and `tie` decides between equals
  · next hb ha =>
    split at h
    · obtain rfl := Option.some.inj h
      exact .inl ⟨rfl, hb, fun _ => by omega⟩
    · split at h
      · obtain rfl := Option.some.inj h
        exact .inr ⟨rfl, ha, fun _ => by omega⟩
      · split at h
        · obtain rfl := Option.some.inj h
          exact .inr ⟨rfl, ha, fun _ => by omega⟩
        · obtain rfl := Option.some.inj h
          split_ifs
          · exact .inl ⟨rfl, hb, fun _ => by omega⟩
          · exact .inr ⟨rfl, ha, fun _ => by omega⟩

/-- A decimal is a point of its grid. -/
theorem in_iff_contains : In ⟨digits, k⟩ t ↔
    t.contains (digits * (2 * (unit * 10 ^ k.toNat))) (10 ^ (-k).toNat) = true := by
  rw [show digits * (2 * (unit * 10 ^ k.toNat)) = 2 * unit * (digits * 10 ^ k.toNat) by ring]
  rfl

theorem in_of_onGrid (h : t.onGrid tie k = some digits) : In ⟨digits, k⟩ t := by
  rw [in_iff_contains]
  obtain ⟨heq, hin, -⟩ | ⟨heq, hin, -⟩ := onGrid_outcomes rfl rfl rfl h
  · rwa [heq]
  · rwa [heq]

end OnGrid

/-- A point is found if one of the two around the magnitude lies in the interval. -/
theorem exists_onGrid {t : Target} {tie : Tie} {k : Int} {step d : Nat}
    (hstep : step = unit * 10 ^ k.toNat) (hd : d = 10 ^ (-k).toNat)
    (h : t.contains (t.value * d / (2 * step) * (2 * step)) d = true ∨
      t.contains ((t.value * d / (2 * step) + 1) * (2 * step)) d = true) :
    ∃ digits, t.onGrid tie k = some digits := by
  have hd' : Nat.pow 10 (-k).toNat = d := hd.symm
  unfold Target.onGrid
  simp only [onGrid_step_eq hstep, hd']
  split
  · exact ⟨_, rfl⟩
  · exact ⟨_, rfl⟩
  · next hb ha =>
    rw [hb, ha] at h
    exact absurd h (by decide)
  · split
    · exact ⟨_, rfl⟩
    · split
      · exact ⟨_, rfl⟩
      · cases tie <;> exact ⟨_, rfl⟩

/-! ## The shortest decimal -/

theorem same_stripZeros (fuel : Nat) (d : Decimal) : d.Same (stripZeros fuel d) := by
  induction fuel generalizing d with
  | zero => exact .refl d
  | succ fuel ih =>
    unfold stripZeros
    split_ifs with h
    · refine Same.trans ?_ (ih _)
      have := same_mul_pow (d.digits / 10) 1 d.exponent
      rwa [Nat.pow_one, Nat.div_mul_cancel (Nat.dvd_of_mod_eq_zero h.2)] at this
    · exact .refl d

/-- Seventeen digits are enough for a decimal in the interval. -/
theorem exists_onGrid_leadingPower (tie : Tie) {code : Nat} (hpos : 0 < code) :
    ∃ digits, (Target.ofCode code).onGrid tie (leadingPower (units code) - (16 : Nat)) =
      some digits := by
  have hunits : units 0 < units code := Binary64.units_strictMono hpos
  obtain ⟨hpower, -⟩ := isPower_leadingPower (show units code ≠ 0 by omega)
  generalize leadingPower (units code) = power at hpower
  refine exists_onGrid rfl rfl ?_
  have hd : 0 < 10 ^ (-(power - (16 : Nat))).toNat := Nat.pow_pos (by decide)
  have hs : 0 < 2 * (unit * 10 ^ (power - (16 : Nat)).toNat) :=
    Nat.mul_pos (by decide) (Nat.mul_pos Binary64.unit_pos (Nat.pow_pos (by decide)))
  exact contains_below_or_above hpos hd (step_le hpower) (Nat.div_mul_le_self _ _)
    (Nat.lt_mul_of_div_lt (Nat.lt_succ_self _) hs)

theorem exists_of_filterMap_range {α : Type} {f : Nat → Option α} {m : Nat} {a : α} {as : List α}
    (h : (List.range m).filterMap f = a :: as) : ∃ n < m, f n = some a ∧ ∀ j < n, f j = none := by
  obtain ⟨js, n, ks, heq, hjs, hn, -⟩ := List.filterMap_eq_cons_iff.1 h
  rw [List.range_eq_range'] at heq
  obtain ⟨k, -, rfl, hk⟩ := List.range'_eq_append_iff.1 heq
  have hlt : k < m := by
    by_contra hle
    rw [Nat.sub_eq_zero_of_le (Nat.not_lt.1 hle)] at hk
    cases hk
  obtain ⟨l, hl⟩ := Nat.exists_eq_add_one_of_ne_zero (Nat.sub_ne_zero_of_lt hlt)
  rw [hl, List.range'_succ, Nat.mul_one, Nat.zero_add] at hk
  obtain ⟨rfl, -⟩ := List.cons.inj hk
  exact ⟨n, hlt, hn, fun j hj => hjs j (List.mem_range'_1.2 ⟨Nat.zero_le j, by omega⟩)⟩

/-- The shortest decimal is found on the first of seventeen grids, each finer than the one before,
that has a point in the interval. -/
theorem exists_shortest_eq (tie : Tie) {code : Nat} (hpos : 0 < code) : ∃ n digits : Nat, n < 17 ∧
    (Target.ofCode code).onGrid tie (leadingPower (units code) - n) = some digits ∧
      shortest tie code = stripZeros 20 ⟨digits, leadingPower (units code) - n⟩ ∧
        ∀ j < n, (Target.ofCode code).onGrid tie (leadingPower (units code) - j) = none := by
  obtain ⟨digits, hdigits⟩ := exists_onGrid_leadingPower tie hpos
  unfold shortest
  rw [if_neg (by omega)]
  dsimp only
  cases hc : (List.range 17).filterMap fun (n : Nat) =>
      ((Target.ofCode code).onGrid tie (leadingPower (units code) - n)).map fun digits =>
        stripZeros 20 ⟨digits, leadingPower (units code) - n⟩ with
  | nil =>
    have := List.filterMap_eq_nil_iff.1 hc 16 (by decide)
    rw [hdigits] at this
    cases this
  | cons d ds =>
    obtain ⟨n, hn, hd, hnone⟩ := exists_of_filterMap_range hc
    obtain ⟨g, hg, rfl⟩ := Option.map_eq_some_iff.1 hd
    exact ⟨n, g, hn, hg, rfl, fun j hj => Option.map_eq_none_iff.1 (hnone j hj)⟩

/-- The shortest decimal of a positive number lies in its interval. -/
theorem shortest_in (tie : Tie) {code : Nat} (hpos : 0 < code) :
    (shortest tie code).In (.ofCode code) := by
  obtain ⟨n, digits, -, hdigits, hshortest, -⟩ := exists_shortest_eq tie hpos
  rw [hshortest]
  exact ((same_stripZeros 20 _).in_iff _).1 (in_of_onGrid hdigits)

/-! ## Texts -/

theorem ofDigits_append (cs ds : List Char) :
    ofDigits (cs ++ ds) = ofDigits cs * 10 ^ ds.length + ofDigits ds := by
  unfold ofDigits
  rw [Nat.ofDigitChars_append, Nat.ofDigitChars_eq_ofDigitChars_zero, Nat.mul_comm]

theorem ofDigits_zeros (n : Nat) : ofDigits (zeros n) = 0 := by
  unfold ofDigits zeros
  rw [Nat.ofDigitChars_replicate_zero, Nat.mul_zero]

theorem exponent?_power (plus : Bool) (power : Int) :
    exponent? ('e' :: (if plus ∧ 0 ≤ power then ['+'] else []) ++ (toString power).toList) =
      some power := by
  have hdigits : ∀ n : Nat, (ofDigits (Nat.toDigits 10 n) : Int) = n := fun n =>
    congrArg Nat.cast (ofDigits_toDigits n)
  rw [toList_toString_int]
  split_ifs with hplus hpos hpos
  · refine (exponent?_plus (.inl rfl) (allDigits_toDigits _)).trans ?_
    rw [hdigits, Int.toNat_of_nonneg hpos]
  · exact absurd hplus.2 hpos
  · refine (exponent?_digits (.inl rfl) (allDigits_toDigits _)).trans ?_
    rw [hdigits, Int.toNat_of_nonneg hpos]
  · refine (exponent?_minus (.inl rfl) (allDigits_toDigits _)).trans ?_
    rw [hdigits, Int.toNat_of_nonneg (by omega), Int.neg_neg]

section Layouts

variable {ds : List Char} (h : AllDigits ds) (power : Int)

include h in
theorem ofChars?_scientific (plus : Bool) :
    ofChars? (scientific plus ds power) = some ⟨ofDigits ds, power + 1 - ds.length⟩ := by
  have hexp := exponent?_power plus power
  have hpower := isExponent_power plus power
  unfold scientific
  dsimp only
  rw [List.append_assoc]
  split
  · next d e rest =>
    obtain ⟨hd, hrest⟩ := List.forall_mem_cons.1 h.2
    have hw : AllDigits [d] := ⟨List.cons_ne_nil _ _, fun c hc => by rwa [List.mem_singleton.1 hc]⟩
    have := ofChars?_append hw (.inr ⟨e :: rest, ⟨List.cons_ne_nil _ _, hrest⟩, rfl⟩) hpower hexp
    refine this.trans ?_
    simp only [List.drop_one, List.tail_cons, List.length_cons, List.singleton_append]
    congr 2
    omega
  · next hds =>
    have := ofChars?_append h (.inl rfl) hpower hexp
    refine this.trans ?_
    have hlength : ds.length = 1 := by
      match ds, h.1, hds with
      | [_], _, _ => rfl
      | _ :: _ :: _, _, hds => exact absurd rfl (hds _ _ _)
    simp [hlength]

include h in
/-- The point stands in front of the digits, with zeros in between. -/
theorem ofChars?_point_zeros (n : Nat) : ofChars? ('0' :: '.' :: (zeros n ++ ds)) =
    some ⟨ofDigits ds, 0 - (n + ds.length : Nat)⟩ := by
  have hread := @ofChars?_append ['0'] _ [] 0 allDigits_zero
    (.inr ⟨_, allDigits_zeros_append h n, rfl⟩) (.inl rfl) rfl
  have hdigits : ofDigits (['0'] ++ (zeros n ++ ds)) = ofDigits ds := by
    rw [ofDigits_append, ofDigits_append, ofDigits_zeros, Nat.zero_mul, Nat.zero_add,
      show ofDigits ['0'] = 0 from rfl, Nat.zero_mul, Nat.zero_add]
  rwa [List.append_nil, List.drop_one, List.tail_cons, hdigits, List.length_append, zeros,
    List.length_replicate] at hread

include h in
/-- The point stands among the digits. -/
theorem ofChars?_take_drop {n : Nat} (hpos : 0 < n) (hlt : n < ds.length) :
    ofChars? (ds.take n ++ '.' :: ds.drop n) =
      some ⟨ofDigits ds, 0 - (ds.length - n : Nat)⟩ := by
  have hread := @ofChars?_append _ _ [] 0 (allDigits_take h hpos)
    (.inr ⟨_, allDigits_drop h hlt, rfl⟩) (.inl rfl) rfl
  rwa [List.append_nil, List.drop_one, List.tail_cons, List.take_append_drop, List.length_drop]
    at hread

include h in
/-- The point stands behind the digits, with zeros in between and one behind it. -/
theorem ofChars?_zeros_point (n : Nat) : ofChars? (ds ++ zeros n ++ ['.', '0']) =
    some ⟨ofDigits ds * 10 ^ (n + 1), -1⟩ := by
  have hread := @ofChars?_append _ ['.', '0'] [] 0 (allDigits_append_zeros h n)
    (.inr ⟨['0'], allDigits_zero, rfl⟩) (.inl rfl) rfl
  have hdigits : ofDigits (ds ++ zeros n ++ ['0']) = ofDigits ds * 10 ^ (n + 1) := by
    have hzeros : zeros n ++ ['0'] = zeros (n + 1) := List.replicate_succ'.symm
    rw [List.append_assoc, hzeros, ofDigits_append, ofDigits_zeros, Nat.add_zero, zeros,
      List.length_replicate]
  rwa [List.append_nil, List.drop_one, List.tail_cons, hdigits] at hread

include h in
theorem exists_ofChars_pointed :
    ∃ e, ofChars? (pointed ds power) = some e ∧ Same ⟨ofDigits ds, power + 1 - ds.length⟩ e := by
  unfold pointed
  dsimp only
  split_ifs with hsmall hinner
  · refine ⟨_, ofChars?_point_zeros h _, ?_⟩
    rw [show (0 : Int) - ((-(power + 1)).toNat + ds.length : Nat) = power + 1 - ds.length by omega]
    exact .refl _
  · refine ⟨_, ofChars?_take_drop h (by omega) (by omega), ?_⟩
    rw [show (0 : Int) - (ds.length - (power + 1).toNat : Nat) = power + 1 - ds.length by omega]
    exact .refl _
  · refine ⟨_, ofChars?_zeros_point h _, Same.symm ?_⟩
    have hsame := same_mul_pow (ofDigits ds) ((power + 1).toNat - ds.length + 1) (-1)
    rwa [show (-1 : Int) + ((power + 1).toNat - ds.length + 1 : Nat) = power + 1 - ds.length by
      omega] at hsame

end Layouts

/-- **The text** of a decimal denotes the decimal, in every layout. -/
theorem exists_ofChars_text (layout : Layout) (d : Decimal) :
    ∃ e, ofChars? (layout.text d) = some e ∧ d.Same e := by
  have hexponent : d.reach - 1 + 1 - (Nat.toDigits 10 d.digits).length = d.exponent := by
    unfold reach
    omega
  unfold Layout.text
  dsimp only
  split_ifs with hzero hpoint
  · refine ⟨⟨0, -1⟩, rfl, ?_⟩
    unfold Same numerator
    rw [hzero, Nat.zero_mul, Nat.zero_mul, Nat.zero_mul, Nat.zero_mul]
  · have := exists_ofChars_pointed (allDigits_toDigits d.digits) (d.reach - 1)
    rwa [ofDigits_toDigits, hexponent] at this
  · have := ofChars?_scientific (allDigits_toDigits d.digits) (d.reach - 1) layout.plus
    rw [ofDigits_toDigits, hexponent] at this
    exact ⟨_, this, .refl d⟩

end Decimal

/-- **A finite number** is read back from its text, in every layout. -/
theorem Binary64.read_text (layout : Decimal.Layout) {x : Binary64}
    (h : x.isFinite = true) :
    (Decimal.ofChars? (layout.text (Decimal.shortest layout.tie x.code.val))).map
      (·.toBinary64 x.negative) = some x := by
  have hfin : x.code.val < infinityCode := of_decide_eq_true h
  have hcode : ofCode x.negative x.code.val = x := by
    unfold ofCode
    rw [Fin.ofNat_val_eq_self]
  obtain ⟨e, he, hsame⟩ := Decimal.exists_ofChars_text layout
    (Decimal.shortest layout.tie x.code.val)
  rw [he, Option.map_some]
  refine congrArg some (Eq.trans ?_ hcode)
  by_cases hpos : 0 < x.code.val
  · exact Decimal.toBinary64_of_in ((hsame.in_iff _).1 (Decimal.shortest_in _ hpos)) hpos hfin _
  · have hzero : x.code.val = 0 := by omega
    have hdigits : e.digits = 0 := by
      unfold Decimal.Same at hsame
      rw [hzero, show Decimal.shortest layout.tie 0 = ⟨0, 0⟩ from rfl, Decimal.numerator,
        Nat.zero_mul, Nat.zero_mul, eq_comm, Nat.mul_eq_zero, Decimal.numerator,
        Nat.mul_eq_zero] at hsame
      have hpow : 0 < 10 ^ e.exponent.toNat := Nat.pow_pos (by decide)
      have hden := Decimal.denominator_pos ⟨0, 0⟩
      omega
    rw [Decimal.toBinary64, if_pos (.inl hdigits), hzero]
    rfl

end SqlFilter
