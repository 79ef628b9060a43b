import Script.Text

/-!
# Source lines and locations

A diagnostic quotes the line it complains about and underlines the offending bytes. A line
is quoted without its carriage returns, while columns count every byte.
-/

namespace Script

/-- A named source text, kept as its lines so that diagnostics can quote them. -/
structure Source where
  name : Text
  lines : List Text
  deriving DecidableEq

namespace Source

/-- Puts one byte in front of text that is already split: a newline opens a line of its own,
a carriage return vanishes. -/
def addByte (b : UInt8) : List Text → List Text
  | lines =>
    if b = Byte.newline then [] :: lines
    else if b = Byte.carriageReturn then lines
    else match lines with
      | [] => [[b]]
      | line :: rest => (b :: line) :: rest

/-- Splits at newlines and drops carriage returns. What follows the last newline is a line
only if something is left of it. -/
def splitLines (text : Text) : List Text :=
  text.foldr addByte []

def ofText (name text : Text) : Source :=
  ⟨name, splitLines text⟩

/-- The line of a given number, counted from one; empty outside the text. -/
def line (s : Source) (number : Int) : Text :=
  if number < 1 then [] else s.lines.getD (number - 1).toNat []

/-- The numbered line with carets under the given columns. At least one caret is drawn, and
columns below one count as one. -/
def excerpt (s : Source) (number col length : Int) : Text :=
  let margin : Text := " * " ++ Text.ofInt number ++ " | "
  margin ++ s.line number ++ "\n" ++ Text.spaces (margin.length + (col - 1).toNat)
    ++ List.replicate (max 1 length).toNat Byte.caret

end Source

/-- A span of source bytes: file name, line and column of its first byte (counted from one)
and its length. The source is there when its lines can be quoted. -/
structure Location where
  file : Text := []
  line : Int := 1
  col : Int := 1
  length : Int := 0
  source : Option Source := none
  deriving DecidableEq

namespace Location

/-- The usual `file:line:column` text. -/
def text (l : Location) : Text :=
  l.file ++ ":" ++ Text.ofInt l.line ++ ":" ++ Text.ofInt l.col

/-- The quoted and underlined line, or a note that there is nothing to quote. -/
def trace (l : Location) : Text :=
  match l.source with
  | some source => source.excerpt l.line l.col l.length
  | none => "(source context unavailable)"

end Location

end Script
