import Script.Number

/-!
# Reading numbers

A text is read as the number that its longest readable beginning stands for: after blanks and
a sign, a decimal, a hexadecimal fraction, or the word for infinity or for NaN. The result is
the double nearest to the exact value. Where nothing can be read the answer is zero.
-/

namespace Script.Number

/-- Blank space in front of a number; form feed and vertical tab are blank here too. -/
def isLeadingBlank (b : UInt8) : Bool :=
  b == Byte.space || (9 ≤ b && b ≤ 13)

def toLower (b : UInt8) : UInt8 :=
  if 65 ≤ b && b ≤ 90 then b + 32 else b

/-- Whether a text begins with a word, in any case. -/
def startsWithWord (word text : Text) : Bool :=
  word == (text.take word.length).map toLower

def isHexDigit (b : UInt8) : Bool :=
  Byte.isDigit b || (97 ≤ toLower b && toLower b ≤ 102)

def hexDigitValue (b : UInt8) : Nat :=
  if Byte.isDigit b then Byte.digitValue b else (toLower b).toNat - 87

def natOfHexDigits (digits : Text) : Nat :=
  digits.foldl (fun n b => 16 * n + hexDigitValue b) 0

/-- The exponent after its mark: an optional sign and digits. A mark without digits is no
exponent and counts as zero. -/
def readExponent (mark : UInt8) (text : Text) : Int :=
  match text with
  | [] => 0
  | b :: rest =>
    if toLower b != mark then 0
    else
      let (negative, digits) : Bool × Text := match rest with
        | Byte.minus :: rest => (true, rest)
        | Byte.plus :: rest => (false, rest)
        | rest => (false, rest)
      let value : Int := Text.digitsValue (digits.takeWhile Byte.isDigit)
      if negative then -value else value

/-- The digits before and after a point, and the text that follows them. -/
def splitFraction (digit : UInt8 → Bool) (text : Text) : Text × Text × Text :=
  let whole := text.takeWhile digit
  match text.dropWhile digit with
  | Byte.dot :: rest => (whole, rest.takeWhile digit, rest.dropWhile digit)
  | rest => (whole, [], rest)

/-- The double nearest to `n * base ^ exponent`, for `n` of at most `size` digits in a base of
at least two. Beyond exponents of a few thousand only zero and infinity are left, so the power
itself is formed only within those bounds. -/
def scaled (negative : Bool) (base n size : Nat) (exponent : Int) : Number :=
  if n = 0 then ofMagnitude negative 0
  else if 2000 < exponent then ofMagnitude negative infinityBits
  else if exponent + size < -2000 then ofMagnitude negative 0
  else nearest negative (n * Nat.pow base exponent.toNat) (Nat.pow base (-exponent).toNat)

/-- A decimal: digits with at most one point among them, and an exponent of ten. -/
def readDecimal (negative : Bool) (text : Text) : Option Number :=
  let (whole, part, rest) := splitFraction Byte.isDigit text
  let digits := whole ++ part
  if digits.isEmpty then none
  else
    let exponent := readExponent Byte.letterE rest - part.length
    some (scaled negative 10 (Text.digitsValue digits) digits.length exponent)

/-- A hexadecimal fraction, after its `0x`, with an exponent of two. -/
def readHex (negative : Bool) (text : Text) : Option Number :=
  let (whole, part, rest) := splitFraction isHexDigit text
  let digits := whole ++ part
  if digits.isEmpty then none
  else
    let exponent := readExponent Byte.letterP rest - 4 * part.length
    some (scaled negative 2 (natOfHexDigits digits) (4 * digits.length) exponent)

/-- A number without its sign. -/
def readUnsigned (negative : Bool) (text : Text) : Option Number :=
  if startsWithWord "inf" text then some (ofMagnitude negative infinityBits)
  else if startsWithWord "nan" text then some (if negative then nan.neg else nan)
  else if startsWithWord "0x" text then
    (readHex negative (text.drop 2)).or (readDecimal negative text)
  else readDecimal negative text

/-- The number that a text begins with, or zero. -/
def ofText (text : Text) : Number :=
  let number := match text.dropWhile isLeadingBlank with
    | Byte.minus :: rest => readUnsigned true rest
    | Byte.plus :: rest => readUnsigned false rest
    | rest => readUnsigned false rest
  number.getD zero

end Script.Number
