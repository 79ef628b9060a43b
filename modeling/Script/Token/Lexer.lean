import Script.Token
import Script.SyntaxError

/-!
# Reading tokens

The source is cut into lexemes from left to right: blanks, comments and tokens. Which lexeme
starts at a place depends only on the bytes from there on, and every lexeme has at least one
byte. A mark of three bytes that announces UTF-8 is skipped at the very start.
-/

namespace Script

/-- Line and column of a byte, counted from one. -/
structure Position where
  line : Nat := 1
  col : Nat := 1
  deriving DecidableEq

/-- The position after a byte: a newline starts the next line. -/
def Position.step (p : Position) (b : UInt8) : Position :=
  if b = Byte.newline then ⟨p.line + 1, 1⟩ else ⟨p.line, p.col + 1⟩

/-- The position after a run of bytes. -/
def Position.advance (p : Position) (bytes : Text) : Position :=
  bytes.foldl Position.step p

/-- What starts at a place of the source, with its length in bytes. A token comes with its
kind and value. -/
inductive Lexeme where
  | gap (length : Nat)
  | token (kind : Token.Kind) (value : Text) (length : Nat)
  deriving DecidableEq

def Lexeme.length : Lexeme → Nat
  | .gap n => n
  | .token _ _ n => n

/-- Why nothing can be read at a place. The complaint is about `length` bytes that start
`offset` bytes further on. -/
structure Misread where
  complaint : Complaint
  offset : Nat
  length : Nat
  deriving DecidableEq

namespace Lexeme

/-- A token whose value is its own spelling. -/
def spelled (kind : Token.Kind) (spelling : Text) : Lexeme :=
  .token kind spelling spelling.length

/-! ## Comments -/

/-- The bytes up to the end of a block comment and with it, given the `n` already read. -/
def commentEnd : Nat → Text → Option Nat
  | _, [] => none
  | n, b :: rest =>
    if b = Byte.star ∧ rest.head? = some Byte.slash then some (n + 2)
    else commentEnd (n + 1) rest

/-! ## Operators and punctuation -/

/-- The operators that end in an equals sign. -/
def pairOperator? : UInt8 → Option Token.Kind
  | Byte.equals => some .equal
  | Byte.bang => some .notEqual
  | Byte.less => some .lessEqual
  | Byte.greater => some .greaterEqual
  | _ => none

/-- The tokens of one byte. -/
def punctuation? (b : UInt8) : Option Token.Kind :=
  match Char.ofUInt8 b with
  | '(' => some .openParen
  | ')' => some .closeParen
  | '\x7b' => some .openBrace
  | '\x7d' => some .closeBrace
  | '[' => some .openBracket
  | ']' => some .closeBracket
  | ',' => some .comma
  | ';' => some .semicolon
  | '.' => some .dot
  | '=' => some .assign
  | '+' => some .plus
  | '-' => some .minus
  | '*' => some .star
  | '/' => some .slash
  | '>' => some .greater
  | '<' => some .less
  | _ => none

/-! ## Strings -/

/-- What may follow a backslash, and the byte it then stands for. -/
def escapes : List (UInt8 × UInt8) :=
  [('n'.toUInt8, Byte.newline), ('t'.toUInt8, Byte.tab), ('r'.toUInt8, Byte.carriageReturn),
    (Byte.backslash, Byte.backslash), (Byte.doubleQuote, Byte.doubleQuote),
    (Byte.singleQuote, Byte.singleQuote), ('0'.toUInt8, 0)]

/-- The denoted text and the length of a string literal, given the `n` bytes already read of
it. The literal ends on its line, and a backslash at the end of the source escapes a NUL. -/
def quoted (quote : UInt8) : Nat → Text → Except Misread (Text × Nat)
  | _, [] => .error ⟨.unterminatedString, 0, 1⟩
  | n, b :: rest =>
    if b = quote then .ok ([], n + 1)
    else if b = Byte.newline then .error ⟨.unterminatedString, 0, 1⟩
    else if b = Byte.backslash then
      match rest with
      | [] => .error ⟨.unknownEscape 0, n, 2⟩
      | e :: rest =>
        match escapes.lookup e with
        | none => .error ⟨.unknownEscape e, n, 2⟩
        | some c => (quoted quote (n + 2) rest).map fun (value, m) => (c :: value, m)
    else (quoted quote (n + 1) rest).map fun (value, m) => (b :: value, m)

/-! ## Numbers -/

/-- A point that digits follow, with these digits; otherwise nothing. -/
def fractionPart : Text → Text
  | Byte.dot :: rest =>
    let digits := rest.takeWhile Byte.isDigit
    if digits.isEmpty then [] else Byte.dot :: digits
  | _ => []

def signPart : Text → Text
  | b :: _ => if b = Byte.plus ∨ b = Byte.minus then [b] else []
  | [] => []

/-- An exponent mark with an optional sign and digits; without digits, nothing. -/
def exponentPart : Text → Text
  | [] => []
  | b :: rest =>
    let sign := signPart rest
    let digits := (rest.drop sign.length).takeWhile Byte.isDigit
    if (b = 101 ∨ b = 69) ∧ !digits.isEmpty then b :: (sign ++ digits) else []

/-- The longest number literal at the front of a text that starts with a digit. -/
def numberSpelling (text : Text) : Text :=
  let whole := text.takeWhile Byte.isDigit
  let part := fractionPart (text.drop whole.length)
  whole ++ part ++ exponentPart (text.drop (whole.length + part.length))

/-! ## Names -/

/-- The words that are no identifiers. -/
def keywords : List (Text × Token.Kind) :=
  [("func", .funcWord), ("class", .classWord), ("new", .newWord), ("return", .returnWord),
    ("if", .ifWord), ("elseif", .elseifWord), ("else", .elseWord), ("while", .whileWord),
    ("for", .forWord), ("true", .boolean), ("false", .boolean), ("null", .null)]

/-- A name may start with one tilde if a letter or an underscore follows it. -/
def startsName (b : UInt8) (rest : Text) : Bool :=
  Byte.isNameStart b || (b == Byte.tilde && rest.head?.any Byte.isNameStart)

def nameSpelling (b : UInt8) (rest : Text) : Text :=
  b :: rest.takeWhile Byte.isNamePart

def ofName (name : Text) : Lexeme :=
  spelled ((keywords.lookup name).getD .identifier) name

/-! ## The next lexeme -/

/-- The lexeme at the front of the text `b :: rest`. -/
def next (b : UInt8) (rest : Text) : Except Misread Lexeme :=
  if Byte.isBlank b then .ok (.gap 1)
  else if b = Byte.hash ∨ (b = Byte.slash ∧ rest.head? = some Byte.slash) then
    .ok (.gap (1 + (rest.takeWhile (· != Byte.newline)).length))
  else if b = Byte.slash ∧ rest.head? = some Byte.star then
    match commentEnd 2 (rest.drop 1) with
    | some n => .ok (.gap n)
    | none => .error ⟨.unterminatedComment, 0, 2⟩
  else match (if rest.head? = some Byte.equals then pairOperator? b else none) with
    | some kind => .ok (spelled kind [b, Byte.equals])
    | none =>
      match punctuation? b with
      | some kind => .ok (spelled kind [b])
      | none =>
        if b = Byte.doubleQuote ∨ b = Byte.singleQuote then
          (quoted b 1 rest).map fun (value, n) => .token .string value n
        else if Byte.isDigit b then .ok (spelled .number (numberSpelling (b :: rest)))
        else if startsName b rest then .ok (ofName (nameSpelling b rest))
        else .error ⟨.unexpectedByte b, 0, 1⟩

end Lexeme

namespace Token

/-- A span at a position of a file. -/
def locate (file : Text) (source : Option Source) (p : Position) (length : Nat) : Location :=
  ⟨file, p.line, p.col, length, source⟩

/-- Reads the text that starts at a position; the first `pending` bytes of it belong to a
lexeme that has been read already. -/
def scanFrom (file : Text) (source : Option Source) :
    Position → Nat → Text → Except SyntaxError (List Token)
  | p, _, [] => .ok [⟨.endOfInput, [], locate file source p 0⟩]
  | p, pending + 1, b :: rest => scanFrom file source (p.step b) pending rest
  | p, 0, b :: rest =>
    match Lexeme.next b rest with
    | .error m =>
      .error ⟨m.complaint,
        locate file source (p.advance ((b :: rest).take m.offset)) m.length⟩
    | .ok (.gap n) => scanFrom file source (p.step b) (n - 1) rest
    | .ok (.token kind value n) =>
      (scanFrom file source (p.step b) (n - 1) rest).map
        (⟨kind, value, locate file source p n⟩ :: ·)

/-- The name shown for a file, also for one without a name. -/
def shownFile (file : Text) : Text :=
  if file.isEmpty then "<input>" else file

/-- The bytes that mark a text as UTF-8. -/
def byteOrderMark : Text := [239, 187, 191]

/-- The tokens of a text, closed by one for the end of the input. The source is what
diagnostics quote from. -/
def scan (file : Text) (source : Option Source) (text : Text) :
    Except SyntaxError (List Token) :=
  scanFrom (shownFile file) source {} (if byteOrderMark.isPrefixOf text then 3 else 0) text

end Token

end Script
