import Script.Source

/-!
# Tokens

A token is a classified span of source bytes. Its value is the span itself, except for a
string literal, whose value is the text it denotes.
-/

namespace Script

/-- What a token is to the grammar. -/
inductive Token.Kind where
  | funcWord | classWord | newWord | returnWord
  | ifWord | elseifWord | elseWord | whileWord | forWord
  | identifier | number | string | boolean | null
  | semicolon | comma | dot
  | openParen | closeParen | openBrace | closeBrace | openBracket | closeBracket
  | assign | plus | minus | star | slash
  | equal | notEqual | greater | greaterEqual | less | lessEqual
  | endOfInput
  | unknown
  deriving DecidableEq

/-- The name of a kind in a token listing. -/
def Token.Kind.name : Token.Kind → String
  | .funcWord => "FUNC"
  | .classWord => "CLASS"
  | .newWord => "NEW"
  | .returnWord => "RETURN"
  | .ifWord => "IF"
  | .elseifWord => "ELSEIF"
  | .elseWord => "ELSE"
  | .whileWord => "WHILE"
  | .forWord => "FOR"
  | .identifier => "IDENTIFIER"
  | .number => "NUMBER"
  | .string => "STRING"
  | .boolean => "BOOLEAN"
  | .null => "NULL_LITERAL"
  | .semicolon => "SEMICOLON"
  | .comma => "COMMA"
  | .dot => "DOT"
  | .openParen => "OPENPARENTHESIS"
  | .closeParen => "CLOSEPARENTHESIS"
  | .openBrace => "OPENBRACE"
  | .closeBrace => "CLOSEBRACE"
  | .openBracket => "OPENBRACKET"
  | .closeBracket => "CLOSEBRACKET"
  | .assign => "ASSIGN"
  | .plus => "PLUS"
  | .minus => "MINUS"
  | .star => "STAR"
  | .slash => "SLASH"
  | .equal => "EQUALITY"
  | .notEqual => "NOTEQUAL"
  | .greater => "GREATERTHAN"
  | .greaterEqual => "GREATEROREQUALTHAN"
  | .less => "LESSTHAN"
  | .lessEqual => "LESSOREQUALTHAN"
  | .endOfInput => "EOF_TOKEN"
  | .unknown => "UNKNOWN"

/-- Every kind, in the order of the declaration. -/
def Token.Kind.all : List Token.Kind :=
  [.funcWord, .classWord, .newWord, .returnWord, .ifWord, .elseifWord, .elseWord, .whileWord,
    .forWord, .identifier, .number, .string, .boolean, .null, .semicolon, .comma, .dot,
    .openParen, .closeParen, .openBrace, .closeBrace, .openBracket, .closeBracket, .assign,
    .plus, .minus, .star, .slash, .equal, .notEqual, .greater, .greaterEqual, .less,
    .lessEqual, .endOfInput, .unknown]

structure Token where
  kind : Token.Kind := .unknown
  value : Text := []
  location : Location := {}
  deriving DecidableEq

end Script
