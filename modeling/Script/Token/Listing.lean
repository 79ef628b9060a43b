import Script.Token

/-!
# Token listings

A readable dump of a token list: one record per token, with quotes, backslashes and newlines
escaped in its texts.
-/

namespace Script

/-- One byte inside a quoted text of a dump. -/
def escapeByte (b : UInt8) : Text :=
  if b = Byte.newline then "\\n"
  else if b = Byte.doubleQuote ∨ b = Byte.backslash then [Byte.backslash, b]
  else [b]

/-- A text for use between double quotes: quotes and backslashes get a backslash in front, and
a newline is written as an escape. -/
def escapeText (t : Text) : Text :=
  t.flatMap escapeByte

namespace Token

/-- The fields of one token, one on a line. -/
def record (t : Token) : Text :=
  "    \"type\": \"" ++ Text.ofString t.kind.name ++ "\",\n"
    ++ "    \"value\": \"" ++ escapeText t.value ++ "\",\n"
    ++ "    \"loc\": \"" ++ escapeText t.location.text ++ "\",\n"
    ++ "    \"length\": " ++ Text.ofInt t.location.length ++ "\n"

def listingItem (t : Token) : Text :=
  "  \x7b\n" ++ t.record ++ "  \x7d"

/-- The dump of a token list. -/
def listing (tokens : List Token) : Text :=
  match tokens with
  | [] => "[\n]\n"
  | tokens => "[\n" ++ Text.join ",\n" (tokens.map listingItem) ++ "\n]\n"

end Token

end Script
