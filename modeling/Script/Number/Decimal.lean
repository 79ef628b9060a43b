import Script.Number

/-!
# Decimal text of numbers

Two ways of writing a number: with a fixed count of places after the point, and with a fixed
count of significant digits. Both round the exact value, ties to even.
-/

namespace Script.Number

/-- The sign that is written in front of a number. -/
def signText (x : Number) : Text :=
  if x.isNegative then "-" else []

/-- The decimal digits of `n`, with zeros in front up to a least width. -/
def paddedDigits (width n : Nat) : Text :=
  let digits := Text.ofNat n
  List.replicate (width - digits.length) Byte.zero ++ digits

/-- A number with six places after the point. -/
def fixedText (x : Number) : Text :=
  if x.isNaN then x.signText ++ "nan"
  else if x.isInfinite then x.signText ++ "inf"
  else
    let (num, den) := x.fraction
    let millionths := roundDiv (num * 1000000) den
    x.signText ++ Text.ofNat (millionths / 1000000) ++ "." ++ paddedDigits 6 (millionths % 1000000)

/-- The count of decimal digits of a natural number. -/
def digitCount (n : Nat) : Nat :=
  (Text.ofNat n).length

/-- The `k` with `10 ^ k ≤ num / den < 10 ^ (k + 1)`, for a positive fraction. -/
def decimalExponent (num den : Nat) : Int :=
  if den ≤ num then (digitCount (num / den) : Int) - 1
  else -(digitCount ((den + num - 1) / num - 1) : Int)

/-- The first `places` significant decimal digits of a positive fraction, rounded, as one
integer, and the decimal exponent of the first of them. -/
def significantDigits (places num den : Nat) : Nat × Int :=
  let k := decimalExponent num den
  let shift : Int := (places : Int) - 1 - k
  let d := roundDiv (num * Nat.pow 10 shift.toNat) (den * Nat.pow 10 (-shift).toNat)
  if d < Nat.pow 10 places then (d, k) else (d / 10, k + 1)

/-- Drops the zeros at the end of a run of digits. -/
def trimZeros (digits : Text) : Text :=
  (digits.reverse.dropWhile (· == Byte.zero)).reverse

/-- Digits after a decimal point; no digits leave no point either. -/
def afterPoint (digits : Text) : Text :=
  if digits.isEmpty then [] else "." ++ digits

/-- An exponent with its sign and at least two digits. -/
def exponentText (k : Int) : Text :=
  "e" ++ (if k < 0 then "-" else "+") ++ paddedDigits 2 k.natAbs

/-- A positive fraction with up to `places` significant digits and no zeros at the end.
Decimal exponents below -4, or of at least `places`, are written out. -/
def significantText (places num den : Nat) : Text :=
  let (d, k) := significantDigits places num den
  let digits := trimZeros (paddedDigits places d)
  if k < -4 ∨ (places : Int) ≤ k then
    digits.take 1 ++ afterPoint (digits.drop 1) ++ exponentText k
  else if k < 0 then
    "0." ++ List.replicate ((-k).toNat - 1) Byte.zero ++ digits
  else
    let whole := k.toNat + 1
    digits.take whole ++ List.replicate (whole - digits.length) Byte.zero
      ++ afterPoint (digits.drop whole)

/-- The text of a number value. Integers below `10 ^ 15` are written in full and zero has no
sign; every other finite number has up to fifteen significant digits. -/
def text (x : Number) : Text :=
  if x.isNaN then "NaN"
  else if x.isInfinite then x.signText ++ "inf"
  else match x.integer? with
    | some n =>
      if n.natAbs < Nat.pow 10 15 then Text.ofInt n
      else x.signText ++ significantText 15 x.fraction.1 x.fraction.2
    | none => x.signText ++ significantText 15 x.fraction.1 x.fraction.2

end Script.Number
