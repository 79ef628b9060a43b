import Script.Source

/-!
# Syntax errors

Why a text is no program. A complaint names the reason, and carries the words of the source
that its message quotes.
-/

namespace Script

/-- Why a text is no program: the first four are about its bytes, the others about the order of
its tokens. The last one is only met where a token list is not closed by its end token. -/
inductive Complaint where
  | unterminatedComment
  | unterminatedString
  | unknownEscape (byte : UInt8)
  | unexpectedByte (byte : UInt8)
  | strayBrace
  | endOfInput
  | functionNameExpected
  | parametersExpected (function : Text)
  | parameterNameExpected
  | duplicateParameter (parameter function : Text)
  | parametersUnclosed
  | blockExpected
  | blockUnclosed
  | classNameExpected
  | classBodyExpected (name : Text)
  | methodExpected
  | classUnclosed (name : Text)
  | loopHeaderExpected
  | initializerUnclosed
  | conditionExpected
  | conditionUnclosed
  | loopHeaderUnclosed
  | invalidTarget (target : Text)
  | propertyNameExpected
  | indexUnclosed
  | arrayUnclosed
  | argumentsUnclosed
  | newClassExpected
  | newArgumentsExpected (name : Text)
  | groupUnclosed
  | expressionMissing
  | expressionExpected (found : Text)
  | unendedTokens
  deriving DecidableEq

/-- The message of a complaint. -/
def Complaint.message : Complaint → Text
  | .unterminatedComment => "Unterminated block comment"
  | .unterminatedString => "Unterminated string literal"
  | .unknownEscape byte => "Unknown escape sequence '\\" ++ [byte] ++ "'"
  | .unexpectedByte byte => "Unexpected character '" ++ [byte] ++ "'"
  | .strayBrace => "Unexpected '\x7d'"
  | .endOfInput => "Unexpected end of input"
  | .functionNameExpected => "Expected function name after 'func'"
  | .parametersExpected function => "Expected '(' after function name '" ++ function ++ "'"
  | .parameterNameExpected => "Expected parameter name"
  | .duplicateParameter parameter function =>
    "Duplicate parameter '" ++ parameter ++ "' in function '" ++ function ++ "'"
  | .parametersUnclosed => "Expected ')' after parameter list"
  | .blockExpected => "Expected '\x7b' to begin block"
  | .blockUnclosed => "Expected '\x7d' to close block"
  | .classNameExpected => "Expected class name after 'class'"
  | .classBodyExpected name => "Expected '\x7b' to begin class '" ++ name ++ "'"
  | .methodExpected => "Only method definitions ('func') are allowed in a class body"
  | .classUnclosed name => "Expected '\x7d' to close class '" ++ name ++ "'"
  | .loopHeaderExpected => "Expected '(' after 'for'"
  | .initializerUnclosed => "Expected ';' after for-loop initializer"
  | .conditionExpected => "Expected a condition in for-loop"
  | .conditionUnclosed => "Expected ';' after for-loop condition"
  | .loopHeaderUnclosed => "Expected ')' to close for-loop header"
  | .invalidTarget target => "Invalid assignment target '" ++ target ++ "'"
  | .propertyNameExpected => "Expected property name after '.'"
  | .indexUnclosed => "Expected ']' after index expression"
  | .arrayUnclosed => "Expected ']' to close array literal"
  | .argumentsUnclosed => "Expected ')' after arguments"
  | .newClassExpected => "Expected class name after 'new'"
  | .newArgumentsExpected name => "Expected '(' after class name '" ++ name ++ "'"
  | .groupUnclosed => "Expected ')' after expression"
  | .expressionMissing => "Unexpected end of input, expected an expression"
  | .expressionExpected found => "Unexpected token '" ++ found ++ "', expected an expression"
  | .unendedTokens => "Unended token list"

/-- A complaint and the place it is about. -/
structure SyntaxError where
  complaint : Complaint
  location : Location
  deriving DecidableEq

/-- The full report: place, message and the quoted line. -/
def SyntaxError.report (e : SyntaxError) : Text :=
  "Parse error at " ++ e.location.text ++ ": " ++ e.complaint.message
    ++ "\n--> Traced at:\n" ++ e.location.trace

end Script
