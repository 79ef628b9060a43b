import Script.Eval.Access
import Script.Proofs.WholeNumbers

/-! # Positions

An index denotes a position if it is a natural number that a significand has room for. Such numbers
are their own integer parts, and no other number equals its integer part. -/

namespace Script

namespace Number

theorem magnitude_ofMagnitude (negative : Bool) {m : Nat} (h : m < signUnit) :
    (ofMagnitude negative m).magnitude = m := by
  have hunit : signUnit = 2 ^ 63 := rfl
  rw [hunit] at h
  cases negative <;> simp [ofMagnitude, magnitude, hunit] <;> omega

theorem nearestBits_le (num den : Nat) : nearestBits num den ≤ infinityBits :=
  Nat.min_le_left _ _

theorem magnitude_nearest (negative : Bool) (num den : Nat) :
    (nearest negative num den).magnitude = if num = 0 then 0 else nearestBits num den := by
  have hbits := nearestBits_le num den
  have hunit : infinityBits < signUnit := by decide
  refine magnitude_ofMagnitude negative ?_
  split <;> omega

/-- The absolute value is in the magnitude bits. -/
theorem fraction_of_magnitude {x y : Number} (h : x.magnitude = y.magnitude) :
    x.fraction = y.fraction := by
  simp only [fraction, significand, exponent, h]

theorem fraction_of_zero {x : Number} (h : x.magnitude = 0) : x.fraction.1 = 0 := by
  have hsignificand : x.significand = 0 := by
    rw [significand, h]
    rfl
  rw [fraction, hsignificand, Nat.zero_mul]

theorem natAbs_rank (x : Number) : x.rank.natAbs = x.magnitude := by
  rw [rank]
  split <;> simp

/-- Magnitude bits that are put together from an exponent and a significand. -/
theorem fraction_of_shifted {x : Number} {j significand : Nat} (hj : j < 53)
    (hlow : 2 ^ 52 ≤ significand) (hhigh : significand < 2 ^ 53)
    (h : x.magnitude = (1074 - j) * exponentUnit + significand) :
    x.fraction = (significand, 2 ^ j) := by
  have hunit : exponentUnit = 2 ^ 52 := rfl
  have hfield : x.magnitude / exponentUnit = 1075 - j := by
    rw [h, hunit]
    omega
  have hrest : x.magnitude % exponentUnit = significand - 2 ^ 52 := by
    rw [h, hunit]
    omega
  have hnormal : ¬ x.magnitude < exponentUnit := by
    rw [h, hunit]
    omega
  have hsignificand : x.significand = significand := by
    rw [Number.significand, if_neg hnormal, hrest, hunit]
    omega
  have hexponent : x.exponent = -j := by
    rw [exponent, if_neg hnormal, hfield]
    omega
  have hup : (-j : Int).toNat = 0 := by omega
  have hdown : (- -(j : Int)).toNat = j := by omega
  rw [fraction, hsignificand, hexponent, hup, hdown]
  simp

/-- A natural number that a significand has room for is a double. -/
theorem fraction_nearest (negative : Bool) {n : Nat} (h : n < 2 ^ 53) :
    (nearest negative n 1).fraction.1 = n * (nearest negative n 1).fraction.2 := by
  by_cases hzero : n = 0
  · have hmagnitude : (nearest negative n 1).magnitude = 0 := by
      rw [magnitude_nearest, if_pos hzero]
    rw [fraction_of_zero hmagnitude, hzero, Nat.zero_mul]
  · have hlog : n.log2 < 53 := (Nat.log2_lt hzero).mpr h
    obtain ⟨j, hj⟩ : ∃ j, n.log2 + j = 52 := ⟨52 - n.log2, by omega⟩
    have hlow : 2 ^ 52 ≤ n * 2 ^ j := by
      rw [← hj, Nat.pow_add]
      exact Nat.mul_le_mul_right _ (Nat.log2_self_le hzero)
    have hhigh : n * 2 ^ j < 2 ^ 53 := by
      have hsum : 53 = n.log2 + 1 + j := by omega
      rw [hsum, Nat.pow_add]
      exact Nat.mul_lt_mul_of_pos_right Nat.lt_log2_self (Nat.two_pow_pos j)
    have hmagnitude : (nearest negative n 1).magnitude =
        (1074 - j) * exponentUnit + n * 2 ^ j := by
      rw [magnitude_nearest, if_neg hzero, nearestBits_shifted rfl hlow hhigh]
    rw [fraction_of_shifted (by omega) hlow hhigh hmagnitude]

theorem isNaN_of_finite {x : Number} (h : x.magnitude < infinityBits) : x.isNaN = false := by
  simpa [isNaN] using Nat.le_of_lt h

theorem isInfinite_of_finite {x : Number} (h : x.magnitude < infinityBits) :
    x.isInfinite = false := by
  simpa [isInfinite] using Nat.ne_of_lt h

theorem truncate_of_finite {x : Number} (h : x.magnitude < infinityBits) :
    x.truncate = nearest x.isNegative (x.fraction.1 / x.fraction.2) 1 := by
  rw [truncate, isNaN_of_finite h, isInfinite_of_finite h, if_neg (by simp)]

/-- A number that is an exact integer is its own integer part. -/
theorem IsExact.truncate_eq {x : Number} {n : Int} (h : x.IsExact n) : x.truncate = x := by
  obtain ⟨hfinite, hvalue, -⟩ := integer_spec h.integer
  have hden : 0 < x.fraction.2 := Nat.two_pow_pos _
  rw [truncate_of_finite hfinite, hvalue, Nat.mul_div_cancel _ hden, h.nearest_natAbs,
    ofMagnitude_magnitude]

theorem IsExact.magnitude_of_zero {x : Number} (h : x.IsExact 0) : x.magnitude = 0 := by
  have hzero := congrArg magnitude (h.nearest_natAbs false)
  rw [magnitude_nearest, magnitude_ofMagnitude false x.magnitude_lt] at hzero
  exact hzero.symm

theorem equal_eq_true {x y : Number} :
    x.equal y = true ↔ x.isNaN = false ∧ y.isNaN = false ∧ x.rank = y.rank := by
  simp [equal, and_assoc]

theorem less_zero {x : Number} (h : x.isNaN = false) : x.less zero = decide (x.rank < 0) := by
  rw [less, h]
  rfl

/-- A finite number is an exact integer if it is as large as its integer part. -/
theorem isExact_of_truncate {x : Number} (hfinite : x.magnitude < infinityBits)
    (hsmall : x.fraction.1 / x.fraction.2 < 2 ^ 53)
    (h : x.truncate.magnitude = x.magnitude) :
    x.IsExact (if x.isNegative then -(x.fraction.1 / x.fraction.2 : Nat)
      else (x.fraction.1 / x.fraction.2 : Nat)) := by
  have hden : 0 < x.fraction.2 := Nat.two_pow_pos _
  have hinteger : x.fraction.1 % x.fraction.2 = 0 := by
    rw [truncate_of_finite hfinite] at h
    have hexact := fraction_nearest x.isNegative hsmall
    rw [fraction_of_magnitude h] at hexact
    rw [hexact, Nat.mul_mod_left]
  constructor
  · simp [integer?, isNaN_of_finite hfinite, isInfinite_of_finite hfinite, hinteger]
  · split
    · rwa [Int.natAbs_neg, Int.natAbs_natCast]
    · rwa [Int.natAbs_natCast]

end Number

/-! ## Indexes -/

/-- A value denotes a position: it is a number, and as a number exactly this integer. The doubles
from `2 ^ 53` on, which cannot tell neighbours apart, denote none. -/
def Value.IsPosition (v : Value) (n : Nat) : Prop :=
  ∃ x : Number, v = .number x ∧ x.IsExact n

theorem Value.position_of_isPosition {v : Value} {n : Nat} (h : v.IsPosition n)
    (precision : Precision) : v.position precision = .ok n := by
  obtain ⟨x, rfl, hx⟩ := h
  obtain ⟨hfinite, hvalue, hsign⟩ := Number.integer_spec hx.integer
  have hnan := Number.isNaN_of_finite hfinite
  have hden : 0 < x.fraction.2 := Nat.two_pow_pos _
  have hquotient : x.fraction.1 / x.fraction.2 = n := by
    rw [hvalue, Nat.mul_div_cancel _ hden, Int.natAbs_natCast]
  have hequal : x.equal x = true := by
    simp [Number.equal, hnan]
  have hless : x.less Number.zero = false := by
    rw [Number.less_zero hnan, Number.rank]
    cases hneg : x.isNegative with
    | false => simp
    | true =>
        rw [hneg, if_pos rfl] at hsign
        obtain rfl : n = 0 := by omega
        simp [hx.magnitude_of_zero]
  have hsmall : ¬ Nat.pow 2 53 ≤ n := Nat.not_le_of_lt (by simpa using hx.small)
  simp [Value.position, hnan, hx.truncate_eq, hequal, hless,
    Number.isInfinite_of_finite hfinite, hquotient, hsmall]

theorem Value.isPosition_of_position {v : Value} {n : Nat} (h : v.position .integral = .ok n) :
    v.IsPosition n := by
  cases v with
  | number x =>
      simp only [Value.position, decide_true, Bool.true_and] at h
      split_ifs at h with hnan hequal hless hlarge
      cases h
      obtain ⟨hnan', -, hrank⟩ := Number.equal_eq_true.mp (by simpa using hequal)
      have hmagnitude : x.truncate.magnitude = x.magnitude := by
        rw [← Number.natAbs_rank, hrank, Number.natAbs_rank]
      simp only [Bool.or_eq_true, decide_eq_true_eq, not_or, Nat.not_le] at hlarge
      obtain ⟨hinfinite, hsmall⟩ := hlarge
      have hfinite : x.magnitude < Number.infinityBits := by
        simp only [Number.isNaN, Number.isInfinite, hmagnitude, decide_eq_false_iff_not,
          beq_iff_eq] at hnan' hinfinite
        omega
      rw [Number.fraction_of_magnitude hmagnitude] at hsmall ⊢
      have hexact := Number.isExact_of_truncate hfinite hsmall hmagnitude
      refine ⟨x, rfl, ?_⟩
      cases hneg : x.isNegative with
      | false => simpa [hneg] using hexact
      | true =>
          -- only the negative zero has a sign and is not less than zero
          have hzero : x.magnitude = 0 := by
            rw [Number.less_zero hnan', hrank, Number.rank, hneg, if_pos rfl] at hless
            simpa using hless
          simpa [hneg, Number.fraction_of_zero hzero] using hexact
  | _ => cases h

end Script
