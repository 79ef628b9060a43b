import Script.Text

/-!
# Numbers

A number is an IEEE 754 double, held as its 64 bits. Sign, exponent and fraction are read off
the bits in exact integer arithmetic, so order, equality, integrality and decimal text never
depend on a rounding; only the four operations round.
-/

namespace Script

structure Number where
  bits : UInt64
  deriving DecidableEq

namespace Number

def zero : Number := ⟨0⟩

/-! ## Fields

The lowest 52 bits are the fraction, the next 11 the exponent field, the highest the sign. -/

/-- One unit of the exponent field. -/
def exponentUnit : Nat := Nat.pow 2 52

/-- The sign bit by itself. -/
def signUnit : Nat := Nat.pow 2 63

/-- The bits without the sign. -/
def magnitude (x : Number) : Nat :=
  x.bits.toNat % signUnit

/-- The sign bit; it is set for negative zero and may be set for a NaN. -/
def isNegative (x : Number) : Bool :=
  signUnit ≤ x.bits.toNat

/-- The magnitude bits of infinity. Larger magnitudes are NaNs. -/
def infinityBits : Nat := 2047 * exponentUnit

def isNaN (x : Number) : Bool :=
  infinityBits < x.magnitude

def isInfinite (x : Number) : Bool :=
  x.magnitude == infinityBits

/-- The number with a given sign and given magnitude bits. -/
def ofMagnitude (negative : Bool) (magnitude : Nat) : Number :=
  ⟨UInt64.ofNat (if negative then signUnit + magnitude else magnitude)⟩

def nan : Number := ofMagnitude false (infinityBits + exponentUnit / 2)

/-! ## Exact value

A finite number is `significand * 2 ^ exponent` up to its sign. -/

def significand (x : Number) : Nat :=
  if x.magnitude < exponentUnit then x.magnitude
  else exponentUnit + x.magnitude % exponentUnit

def exponent (x : Number) : Int :=
  if x.magnitude < exponentUnit then -1074 else (x.magnitude / exponentUnit : Nat) - 1075

/-- The absolute value of a finite number as a fraction. -/
def fraction (x : Number) : Nat × Nat :=
  (x.significand * Nat.pow 2 x.exponent.toNat, Nat.pow 2 (-x.exponent).toNat)

/-- The integer that a finite number is, or `none` if it has a fractional part. -/
def integer? (x : Number) : Option Int :=
  let (num, den) := x.fraction
  if x.isNaN || x.isInfinite || num % den != 0 then none
  else some (if x.isNegative then -(num / den : Nat) else (num / den : Nat))

/-! ## Order

Magnitude bits grow with the absolute value, so the signed magnitude orders all numbers
that are not NaN, and gives both zeros the same place. -/

def rank (x : Number) : Int :=
  if x.isNegative then -(x.magnitude : Int) else x.magnitude

/-- Numeric equality: a NaN equals nothing, and the two zeros are equal. -/
def equal (x y : Number) : Bool :=
  !x.isNaN && !y.isNaN && x.rank == y.rank

def less (x y : Number) : Bool :=
  !x.isNaN && !y.isNaN && x.rank < y.rank

/-- The order of two numbers; there is none when either is NaN. -/
def compare? (x y : Number) : Option Ordering :=
  if x.isNaN || y.isNaN then none else some (compare x.rank y.rank)

/-! ## Arithmetic -/

def toFloat (x : Number) : Float := Float.ofBits x.bits

def ofFloat (x : Float) : Number := ⟨x.toBits⟩

def add (x y : Number) : Number := ofFloat (x.toFloat + y.toFloat)

def sub (x y : Number) : Number := ofFloat (x.toFloat - y.toFloat)

def mul (x y : Number) : Number := ofFloat (x.toFloat * y.toFloat)

def div (x y : Number) : Number := ofFloat (x.toFloat / y.toFloat)

/-- Negation flips the sign bit, also of zeros and NaNs. -/
def neg (x : Number) : Number := ofMagnitude (!x.isNegative) x.magnitude

/-! ## Rounding -/

/-- The integer nearest to `num / den`; a tie goes to the even neighbour. -/
def roundDiv (num den : Nat) : Nat :=
  let q := num / den
  let r := num % den
  if 2 * r < den then q
  else if den < 2 * r then q + 1
  else q + q % 2

/-- The magnitude bits of the double nearest to the positive fraction `num / den`; a tie goes
to the even neighbour, and what lies beyond the largest double is infinite.

With `2 ^ e` at most the fraction's power of two, `m` counts multiples of the spacing `2 ^ q`
of the doubles there; a carry of `m` to the next power of two moves into the exponent field. -/
def nearestBits (num den : Nat) : Nat :=
  let guess : Int := (num.log2 : Int) - den.log2
  let below : Bool := num * Nat.pow 2 (-guess).toNat < den * Nat.pow 2 guess.toNat
  let e : Int := if below then guess - 1 else guess
  let q : Int := max (e - 52) (-1074)
  let m := roundDiv (num * Nat.pow 2 (-q).toNat) (den * Nat.pow 2 q.toNat)
  min infinityBits ((q + 1074).toNat * exponentUnit + m)

/-- The double nearest to the fraction `num / den` with the given sign. -/
def nearest (negative : Bool) (num den : Nat) : Number :=
  ofMagnitude negative (if num = 0 then 0 else nearestBits num den)

/-- The double nearest to a natural number. -/
def ofNat (n : Nat) : Number :=
  nearest false n 1

end Number

end Script
