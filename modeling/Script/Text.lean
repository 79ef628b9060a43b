/-!
# Byte strings

Source text, names, string values and messages are sequences of bytes. Nothing in the
language decodes them: columns, lengths and the order of strings count bytes.
-/

namespace Script

/-- A byte string. -/
abbrev Text := List UInt8

/-! ## Bytes by name -/

namespace Byte

@[match_pattern] abbrev tab : UInt8 := 9
@[match_pattern] abbrev newline : UInt8 := 10
@[match_pattern] abbrev carriageReturn : UInt8 := 13
@[match_pattern] abbrev space : UInt8 := 32
@[match_pattern] abbrev bang : UInt8 := 33
@[match_pattern] abbrev doubleQuote : UInt8 := 34
@[match_pattern] abbrev hash : UInt8 := 35
@[match_pattern] abbrev singleQuote : UInt8 := 39
@[match_pattern] abbrev star : UInt8 := 42
@[match_pattern] abbrev plus : UInt8 := 43
@[match_pattern] abbrev minus : UInt8 := 45
@[match_pattern] abbrev dot : UInt8 := 46
@[match_pattern] abbrev slash : UInt8 := 47
@[match_pattern] abbrev zero : UInt8 := 48
@[match_pattern] abbrev less : UInt8 := 60
@[match_pattern] abbrev equals : UInt8 := 61
@[match_pattern] abbrev greater : UInt8 := 62
@[match_pattern] abbrev backslash : UInt8 := 92
@[match_pattern] abbrev caret : UInt8 := 94
@[match_pattern] abbrev underscore : UInt8 := 95
@[match_pattern] abbrev letterE : UInt8 := 101
@[match_pattern] abbrev letterP : UInt8 := 112
@[match_pattern] abbrev tilde : UInt8 := 126

/-! ## Classes

The classes know ASCII only; bytes from 128 on belong to none of them. -/

def isDigit (b : UInt8) : Bool :=
  48 ≤ b && b ≤ 57

def isLetter (b : UInt8) : Bool :=
  (65 ≤ b && b ≤ 90) || (97 ≤ b && b ≤ 122)

/-- A byte that can start a name. -/
def isNameStart (b : UInt8) : Bool :=
  isLetter b || b == underscore

/-- A byte that can continue a name. -/
def isNamePart (b : UInt8) : Bool :=
  isNameStart b || isDigit b

/-- Space, tab, carriage return or newline: the bytes that may stand between tokens. -/
def isBlank (b : UInt8) : Bool :=
  b == space || b == tab || b == carriageReturn || b == newline

/-- The value of a decimal digit. -/
def digitValue (b : UInt8) : Nat :=
  b.toNat - 48

end Byte

/-! ## Texts -/

namespace Text

/-- The UTF-8 bytes of a string. -/
def ofString (s : String) : Text :=
  s.toUTF8.data.toList

instance : Coe String Text := ⟨ofString⟩

/-- The decimal digits of a natural number, without leading zeros. -/
def ofNat (n : Nat) : Text :=
  (Nat.toDigits 10 n).map Char.toUInt8

/-- The decimal text of an integer, with a minus sign below zero. -/
def ofInt : Int → Text
  | .ofNat n => ofNat n
  | .negSucc n => Byte.minus :: ofNat (n + 1)

/-- The number written by a run of decimal digits. -/
def digitsValue (digits : Text) : Nat :=
  digits.foldl (fun n b => 10 * n + Byte.digitValue b) 0

/-- A run of `n` spaces. -/
def spaces (n : Nat) : Text :=
  List.replicate n Byte.space

/-- The parts in order, with a separator between neighbours. -/
def join (separator : Text) (parts : List Text) : Text :=
  List.intercalate separator parts

/-- Byte order: the first difference decides, and a proper initial part comes first. -/
def compare : Text → Text → Ordering
  | [], [] => .eq
  | [], _ :: _ => .lt
  | _ :: _, [] => .gt
  | a :: s, b :: t => if a < b then .lt else if b < a then .gt else compare s t

/-- The part before the first NUL byte, or all of a text without one. -/
def beforeNul (t : Text) : Text :=
  t.takeWhile (· != 0)

end Text

end Script
