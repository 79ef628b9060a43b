import Script.Number.Decimal
import Script.Number.Reader
import Script.Proofs.Spelling
import Mathlib.Algebra.Group.Nat.Defs

/-!
# Texts of whole numbers

An integer below `10 ^ 15` is written with all its digits. A literal with these digits is read as the
number again: the value of the digits is exact, and a double that is an integer is the nearest
double to itself.
-/

namespace Script

open Lexeme

/-! ## Digits -/

theorem Byte.digitValue_toUInt8 {c : Char} (h : c.isDigit = true) :
    Byte.isDigit c.toUInt8 = true ∧ Byte.digitValue c.toUInt8 = c.toNat - '0'.toNat := by
  obtain ⟨hlow, hhigh⟩ : 48 ≤ c.toNat ∧ c.toNat ≤ 57 := by
    simpa [Char.isDigit, UInt32.le_iff_toNat_le] using h
  have hbyte : c.toUInt8.toNat = c.toNat := by
    rw [Char.toUInt8, UInt32.toNat_toUInt8]
    exact Nat.mod_eq_of_lt (show c.toNat < 256 by omega)
  constructor
  · simp only [Byte.isDigit, Bool.and_eq_true, decide_eq_true_eq, UInt8.le_iff_toNat_le, hbyte]
    exact ⟨hlow, hhigh⟩
  · rw [Byte.digitValue, hbyte]
    rfl

namespace Text

theorem digits_ofNat (n : Nat) : Digits (ofNat n) := by
  refine ⟨by simp [ofNat], fun b hb => ?_⟩
  obtain ⟨c, hc, rfl⟩ := List.mem_map.mp hb
  exact (Byte.digitValue_toUInt8 (Nat.isDigit_of_mem_toDigits (by decide) (by decide) hc)).1

/-- The digits of a number have the number as their value. -/
theorem digitsValue_ofNat (n : Nat) : digitsValue (ofNat n) = n := by
  have hvalue (cs : List Char) (hcs : ∀ c ∈ cs, c.isDigit = true) (k : Nat) :
      (cs.map Char.toUInt8).foldl (fun n b => 10 * n + Byte.digitValue b) k =
        Nat.ofDigitChars 10 cs k := by
    induction cs generalizing k with
    | nil => rfl
    | cons c cs ih =>
      obtain ⟨hc, hrest⟩ := List.forall_mem_cons.mp hcs
      rw [List.map_cons, List.foldl_cons, ih hrest, (Byte.digitValue_toUInt8 hc).2]
      rfl
  have hdigits : ∀ c ∈ Nat.toDigits 10 n, c.isDigit = true := fun c hc =>
    Nat.isDigit_of_mem_toDigits (by decide) (by decide) hc
  exact (hvalue _ hdigits 0).trans (Nat.ofDigitChars_toDigits (by decide) (by decide))

end Text

namespace Number

/-! ## Reading digits -/

theorem isDigit_toLower (b : UInt8) : Byte.isDigit b = true → Byte.isDigit (toLower b) = true :=
  Byte.forall_of_fin (p := fun b => Byte.isDigit b = true → Byte.isDigit (toLower b) = true)
    (by decide +kernel) b

theorem not_isLeadingBlank (b : UInt8) : Byte.isDigit b = true → isLeadingBlank b = false :=
  Byte.forall_of_fin (p := fun b => Byte.isDigit b = true → isLeadingBlank b = false)
    (by decide +kernel) b

/-- A run of digits begins with no word but a run of digits. -/
theorem not_startsWithWord {word ds : Text} (h : Digits ds) {b : UInt8} (hb : b ∈ word)
    (hletter : Byte.isDigit b = false) : startsWithWord word ds = false := by
  by_contra hstarts
  have hword : word = (ds.take word.length).map toLower := by
    simpa [startsWithWord] using hstarts
  rw [hword] at hb
  obtain ⟨d, hd, rfl⟩ := List.mem_map.mp hb
  have hdigit := isDigit_toLower d (h.2 d (List.mem_of_mem_take hd))
  rw [hdigit] at hletter
  cases hletter

theorem readUnsigned_digits {ds : Text} (h : Digits ds) (negative : Bool) :
    readUnsigned negative ds = readDecimal negative ds := by
  have hinf : startsWithWord "inf" ds = false :=
    not_startsWithWord h (b := 105) (by decide) (by decide)
  have hnan : startsWithWord "nan" ds = false :=
    not_startsWithWord h (b := 110) (by decide) (by decide)
  have hhex : startsWithWord "0x" ds = false :=
    not_startsWithWord h (b := 120) (by decide) (by decide)
  simp only [readUnsigned, hinf, hnan, hhex, Bool.false_eq_true, if_false]

theorem readDecimal_digits {ds : Text} (h : Digits ds) (negative : Bool) :
    readDecimal negative ds = some (nearest negative (Text.digitsValue ds) 1) := by
  have hwhole : ds.takeWhile Byte.isDigit = ds := List.takeWhile_eq_self_iff.mpr h.2
  have hrest : ds.dropWhile Byte.isDigit = [] := List.dropWhile_eq_nil_iff.mpr h.2
  have hempty : ds.isEmpty = false := by simpa using h.1
  have hscaled : scaled negative 10 (Text.digitsValue ds) ds.length 0 =
      nearest negative (Text.digitsValue ds) 1 := by
    by_cases hzero : Text.digitsValue ds = 0
    · rw [scaled, if_pos hzero, nearest, if_pos hzero]
    · have hone : Nat.pow 10 (Int.toNat 0) = 1 := rfl
      rw [scaled, if_neg hzero, if_neg (by decide), if_neg (by omega), hone, Nat.mul_one]
      rfl
  simp only [readDecimal, splitFraction, hwhole, hrest, List.append_nil, hempty]
  exact congrArg some hscaled

theorem ofText_digits {ds : Text} (h : Digits ds) : ofText ds = ofNat (Text.digitsValue ds) := by
  obtain ⟨d, rest, rfl⟩ := List.exists_cons_of_ne_nil h.1
  have hd : Byte.isDigit d = true := h.2 d List.mem_cons_self
  have hblank : (d :: rest).dropWhile isLeadingBlank = d :: rest :=
    List.dropWhile_cons_of_neg (by simp [not_isLeadingBlank d hd])
  unfold ofText
  rw [hblank]
  split
  next heq => cases heq; cases hd
  next heq => cases heq; cases hd
  next => rw [readUnsigned_digits h, readDecimal_digits h]; rfl

/-! ## Bits -/

theorem magnitude_lt (x : Number) : x.magnitude < signUnit :=
  Nat.mod_lt _ (by decide)

/-- A number is its sign and its magnitude bits. -/
theorem ofMagnitude_magnitude (x : Number) : ofMagnitude x.isNegative x.magnitude = x := by
  obtain ⟨bits⟩ := x
  have hbits := bits.toNat_lt
  have hvalue : (if (⟨bits⟩ : Number).isNegative then signUnit + magnitude ⟨bits⟩
      else magnitude ⟨bits⟩) = bits.toNat := by
    have hunit : signUnit = 2 ^ 63 := rfl
    simp only [isNegative, magnitude, hunit, decide_eq_true_eq]
    split <;> omega
  rw [ofMagnitude, hvalue, UInt64.ofNat_toNat]

theorem bits_ofMagnitude {m : Nat} (h : m < signUnit) : (ofMagnitude false m).bits.toNat = m := by
  have hunit : signUnit = 2 ^ 63 := rfl
  rw [ofMagnitude, if_neg (by simp), UInt64.toNat_ofNat']
  exact Nat.mod_eq_of_lt (by omega)

theorem neg_ofMagnitude {m : Nat} (h : m < signUnit) :
    (ofMagnitude false m).neg = ofMagnitude true m := by
  have hbits := bits_ofMagnitude h
  have hsign : (ofMagnitude false m).isNegative = false := by
    simpa [isNegative, hbits] using h
  have hmagnitude : (ofMagnitude false m).magnitude = m := by
    rw [magnitude, hbits, Nat.mod_eq_of_lt h]
  rw [neg, hsign, hmagnitude]
  rfl

/-! ## Rounding -/

theorem roundDiv_one (n : Nat) : roundDiv n 1 = n := by
  simp [roundDiv, Nat.mod_one]

/-- An integer that gets the 53 bits of a significand by a shift to the left is rounded to the double
that has this significand. -/
theorem nearestBits_shifted {k j significand : Nat} (hshift : k * 2 ^ j = significand)
    (hlow : 2 ^ 52 ≤ significand) (hhigh : significand < 2 ^ 53) :
    nearestBits k 1 = (1074 - j) * exponentUnit + significand := by
  have hk : 0 < k := by
    by_contra hzero
    obtain rfl : k = 0 := by omega
    omega
  have hj : j < 53 := by
    refine (Nat.pow_lt_pow_iff_right (a := 2) (by decide)).mp (Nat.lt_of_le_of_lt ?_ hhigh)
    rw [← hshift]
    exact Nat.le_mul_of_pos_left _ hk
  have hfloor : 2 ^ (52 - j) ≤ k := by
    refine Nat.le_of_mul_le_mul_right ?_ (Nat.two_pow_pos j)
    rwa [← Nat.pow_add, Nat.sub_add_cancel (by omega), hshift]
  have hceiling : k < 2 ^ (52 - j + 1) := by
    refine Nat.lt_of_mul_lt_mul_right (a := 2 ^ j) ?_
    have hsum : 52 - j + 1 + j = 53 := by omega
    rwa [← Nat.pow_add, hsum, hshift]
  have hlog : k.log2 = 52 - j := (Nat.log2_eq_iff (by omega)).mpr ⟨hfloor, hceiling⟩
  -- The spacing of the doubles around `k` is `2 ^ -j`.
  have hguess : (k.log2 : Int) - (Nat.log2 1 : Nat) = 52 - j := by
    have hone : Nat.log2 1 = 0 := by decide
    rw [hlog, hone]
    omega
  have hdown : (-(52 - j : Int)).toNat = 0 := by omega
  have hup : (52 - j : Int).toNat = 52 - j := by omega
  have hspacing : max (52 - j - 52 : Int) (-1074) = -j := by omega
  have hzero : (-j : Int).toNat = 0 := by omega
  have hback : (- -(j : Int)).toNat = j := by omega
  have hfield : (-j + 1074 : Int).toNat = 1074 - j := by omega
  have hbelow : ¬ k * Nat.pow 2 0 < 1 * Nat.pow 2 (52 - j) := by
    simpa using hfloor
  have hround : roundDiv (k * Nat.pow 2 j) (1 * Nat.pow 2 0) = significand := by
    rw [← hshift]
    exact roundDiv_one _
  simp only [nearestBits, hguess, hdown, hup, decide_eq_true_eq, if_neg hbelow, hspacing, hzero,
    hback, hfield, hround]
  refine Nat.min_eq_right ?_
  have hexponent : (1074 - j) * exponentUnit ≤ 1074 * exponentUnit :=
    Nat.mul_le_mul_right _ (Nat.sub_le 1074 j)
  have hdouble : 2 ^ 53 = 2 * exponentUnit := by decide
  rw [infinityBits]
  omega

/-! ## Whole numbers -/

/-- What it means for a number to be an integer. -/
theorem integer_spec {x : Number} {n : Int} (h : x.integer? = some n) :
    x.magnitude < infinityBits ∧ x.fraction.1 = n.natAbs * x.fraction.2 ∧
      n = if x.isNegative then -(n.natAbs : Int) else n.natAbs := by
  rcases hfraction : x.fraction with ⟨num, den⟩
  simp only [integer?, hfraction, isNaN, isInfinite] at h
  split at h
  · cases h
  · rename_i hfinite
    simp only [Bool.or_eq_true, decide_eq_true_eq, beq_iff_eq, bne_iff_ne, not_or, not_not]
      at hfinite
    obtain ⟨⟨hnan, hinfinite⟩, hdvd⟩ := hfinite
    have hn : n.natAbs = num / den := by
      split at h <;> cases h
      · exact (Int.natAbs_neg _).trans (Int.natAbs_natCast _)
      · exact Int.natAbs_natCast _
    refine ⟨by omega, ?_, ?_⟩
    · rw [hn, Nat.div_mul_cancel (Nat.dvd_of_mod_eq_zero hdvd)]
    · rw [hn]
      exact (Option.some.inj h).symm

theorem text_of_integer {x : Number} {n : Int} (h : x.integer? = some n)
    (hsmall : n.natAbs < Nat.pow 10 15) : x.text = Text.ofInt n := by
  obtain ⟨hfinite, -, -⟩ := integer_spec h
  have hnan : x.isNaN = false := by
    simpa [isNaN] using Nat.le_of_lt hfinite
  have hinfinite : x.isInfinite = false := by
    simpa [isInfinite] using Nat.ne_of_lt hfinite
  simp only [text, hnan, hinfinite, Bool.false_eq_true, if_false, h, if_pos hsmall]

/-- An integer that a significand has room for. -/
structure IsExact (x : Number) (n : Int) : Prop where
  integer : x.integer? = some n
  small : n.natAbs < Nat.pow 2 53

namespace IsExact

variable {x : Number} {n : Int}

theorem value_eq (h : x.IsExact n) :
    x.significand * 2 ^ x.exponent.toNat = n.natAbs * 2 ^ (-x.exponent).toNat :=
  (integer_spec h.integer).2.1

/-- A subnormal number is no integer but zero. -/
theorem magnitude_of_subnormal (h : x.IsExact n) (hsmall : x.magnitude < exponentUnit) :
    n.natAbs = 0 ∧ x.magnitude = 0 := by
  have hsignificand : x.significand = x.magnitude := if_pos hsmall
  have hexponent : x.exponent = -1074 := if_pos hsmall
  have hzero : x.exponent.toNat = 0 := by omega
  have hback : 52 ≤ (-x.exponent).toNat := by omega
  have hvalue : x.magnitude = n.natAbs * 2 ^ (-x.exponent).toNat := by
    rw [← h.value_eq, hsignificand, hzero, Nat.pow_zero, Nat.mul_one]
  have hlt : x.magnitude < 2 ^ (-x.exponent).toNat :=
    Nat.lt_of_lt_of_le hsmall (Nat.pow_le_pow_right (by decide) hback)
  have hn : n.natAbs = 0 := by
    by_contra hne
    rw [hvalue] at hlt
    exact Nat.not_lt_of_le (Nat.le_mul_of_pos_left _ (Nat.pos_of_ne_zero hne)) hlt
  exact ⟨hn, by rw [hvalue, hn, Nat.zero_mul]⟩

/-- An integer with a normal significand `s` is `s / 2 ^ j`, since it is too small to be `2 * s` or
more. -/
theorem significand_eq (h : x.IsExact n) (hlarge : exponentUnit ≤ x.significand) :
    x.exponent ≤ 0 ∧ n.natAbs * 2 ^ (-x.exponent).toNat = x.significand := by
  have hvalue := h.value_eq
  have hneg : x.exponent ≤ 0 := by
    by_contra hpos
    have hback : (-x.exponent).toNat = 0 := by omega
    rw [hback, Nat.pow_zero, Nat.mul_one] at hvalue
    have htwo : 2 ^ 1 ≤ 2 ^ x.exponent.toNat := Nat.pow_le_pow_right (by decide) (by omega)
    have hle : exponentUnit * 2 ≤ x.significand * 2 ^ x.exponent.toNat :=
      Nat.mul_le_mul hlarge htwo
    have hunit : Nat.pow 2 53 = exponentUnit * 2 := by decide
    have hsmall := h.small
    omega
  have hzero : x.exponent.toNat = 0 := by omega
  rw [hzero, Nat.pow_zero, Nat.mul_one] at hvalue
  exact ⟨hneg, hvalue.symm⟩

theorem nearestBits_natAbs (h : x.IsExact n) (hnormal : exponentUnit ≤ x.magnitude) :
    n.natAbs ≠ 0 ∧ nearestBits n.natAbs 1 = x.magnitude := by
  have hpos : 0 < exponentUnit := by decide
  have hdouble : 2 ^ 53 = 2 * exponentUnit := by decide
  have hfraction := Nat.mod_lt x.magnitude hpos
  have hfield : 0 < x.magnitude / exponentUnit := Nat.div_pos hnormal hpos
  have hsignificand : x.significand = exponentUnit + x.magnitude % exponentUnit :=
    if_neg (by omega)
  have hexponent : x.exponent = (x.magnitude / exponentUnit : Nat) - 1075 := if_neg (by omega)
  obtain ⟨hneg, hshift⟩ := h.significand_eq (by omega)
  constructor
  · intro hn
    rw [hn, Nat.zero_mul] at hshift
    omega
  · have hshifted := nearestBits_shifted hshift (by rw [hsignificand]; exact Nat.le_add_right _ _)
      (by omega)
    have hplace : 1074 - (-x.exponent).toNat = x.magnitude / exponentUnit - 1 := by omega
    rw [hshifted, hplace, hsignificand]
    calc
      (x.magnitude / exponentUnit - 1) * exponentUnit +
          (exponentUnit + x.magnitude % exponentUnit)
        = (x.magnitude / exponentUnit - 1 + 1) * exponentUnit + x.magnitude % exponentUnit := by
          rw [Nat.add_mul, Nat.one_mul, Nat.add_assoc]
      _ = x.magnitude := by rw [Nat.sub_add_cancel hfield, Nat.div_add_mod']

/-- The double nearest to the absolute value has the same magnitude bits. -/
theorem nearest_natAbs (h : x.IsExact n) (negative : Bool) :
    nearest negative n.natAbs 1 = ofMagnitude negative x.magnitude := by
  by_cases hsmall : x.magnitude < exponentUnit
  · obtain ⟨hn, hmagnitude⟩ := h.magnitude_of_subnormal hsmall
    rw [nearest, if_pos hn, hmagnitude]
  · obtain ⟨hn, hbits⟩ := h.nearestBits_natAbs (by omega)
    rw [nearest, if_neg hn, hbits]

/-- The digits of the absolute value are read as the number without its sign. -/
theorem ofText_natAbs (h : x.IsExact n) :
    ofText (Text.ofNat n.natAbs) = ofMagnitude false x.magnitude := by
  rw [ofText_digits (Text.digits_ofNat _), Text.digitsValue_ofNat, ofNat, h.nearest_natAbs]

end IsExact

/-- An integer below `10 ^ 15`, but not the negative zero. -/
structure IsWhole (x : Number) (n : Int) : Prop where
  integer : x.integer? = some n
  small : n.natAbs < Nat.pow 10 15
  zero : n = 0 → x.isNegative = false

namespace IsWhole

variable {x : Number} {n : Int}

theorem isNegative_iff (h : x.IsWhole n) : x.isNegative = true ↔ n < 0 := by
  obtain ⟨-, -, hsign⟩ := integer_spec h.integer
  have hzero := h.zero
  cases hneg : x.isNegative with
  | false =>
    rw [hneg, if_neg (by simp)] at hsign
    simp only [Bool.false_eq_true, false_iff]
    omega
  | true =>
    rw [hneg, if_pos rfl] at hsign
    rw [hneg] at hzero
    have hne : n ≠ 0 := fun hn => by cases hzero hn
    simp only [true_iff]
    omega

theorem text_eq (h : x.IsWhole n) : x.text = Text.ofInt n :=
  text_of_integer h.integer h.small

theorem exact (h : x.IsWhole n) : x.IsExact n where
  integer := h.integer
  small := Nat.lt_of_lt_of_le h.small (by decide)

theorem ofText_of_nonneg (h : x.IsWhole n) (hn : 0 ≤ n) : ofText (Text.ofNat n.natAbs) = x := by
  have hsign : x.isNegative = false := by
    rw [← Bool.not_eq_true, h.isNegative_iff]
    omega
  rw [h.exact.ofText_natAbs, ← hsign, ofMagnitude_magnitude]

theorem neg_ofText_of_neg (h : x.IsWhole n) (hn : n < 0) :
    (ofText (Text.ofNat n.natAbs)).neg = x := by
  have hsign : x.isNegative = true := h.isNegative_iff.mpr hn
  rw [h.exact.ofText_natAbs, neg_ofMagnitude (Number.magnitude_lt x), ← hsign,
    ofMagnitude_magnitude]

end IsWhole

end Number

end Script
