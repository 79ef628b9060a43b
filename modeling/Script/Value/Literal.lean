import Script.Value
import Script.Number.Decimal

/-!
# Texts of plain values
-/

namespace Script

/-- One byte of a string inside quotes. -/
def quoteByte (b : UInt8) : Text :=
  if b = Byte.doubleQuote then "\\\""
  else if b = Byte.backslash then "\\\\"
  else if b = Byte.newline then "\\n"
  else if b = Byte.tab then "\\t"
  else if b = Byte.carriageReturn then "\\r"
  else [b]

/-- A string as a literal that denotes it. -/
def quoteText (t : Text) : Text :=
  "\"" ++ t.flatMap quoteByte ++ "\""

def Function.text (f : Function) : Text :=
  "<func " ++ f.name ++ "(" ++ Text.join ", " f.params ++ ")>"

/-- Whether a text stands by itself or inside the text of an array or object. Strings are
quoted inside only. -/
inductive Standing where
  | alone | nested
  deriving DecidableEq

def Standing.stringText : Standing → Text → Text
  | .alone, s => s
  | .nested, s => quoteText s

/-- The texts of the parts of an array, in brackets. -/
def arrayText (items : List Text) : Text :=
  "[" ++ Text.join ", " items ++ "]"

/-- The texts of the properties of an object, in braces. -/
def objectText (fields : List Text) : Text :=
  "\x7b" ++ Text.join ", " fields ++ "\x7d"

end Script
