import Script.Syntax.Render
import Script.Number.Reader
import Script.SyntaxError

/-!
# From tokens to programs

A recursive descent over the token list. A parser takes the tokens that are left and gives a
tree and the tokens it did not need; or it refuses, at the token it cannot accept.

Parsers for nested phrases are arguments of the parsers around them, and each loop counts down
a number. Both are bounded by the count of tokens, since every nested phrase and every round
takes at least one.
-/

namespace Script

/-- Why a parser gives up; the first of the remaining tokens is the one it objects to. -/
structure Refusal where
  complaint : Complaint
  rest : List Token

abbrev Parser := StateT (List Token) (Except Refusal)

namespace Parser

/-! ## Single tokens -/

def refuse {α : Type} (complaint : Complaint) : Parser α :=
  fun tokens => .error ⟨complaint, tokens⟩

/-- The next token, which stays where it is. -/
def peek : Parser Token
  | [] => .error ⟨.unendedTokens, []⟩
  | t :: rest => .ok (t, t :: rest)

/-- Takes the next token. -/
def advance : Parser Token
  | [] => .error ⟨.unendedTokens, []⟩
  | t :: rest => .ok (t, rest)

/-- Takes the next token if it is of the given kind. -/
def expect (kind : Token.Kind) (complaint : Complaint) : Parser Token := do
  if (← peek).kind = kind then advance else refuse complaint

/-- Takes the next token if it is of the given kind, and tells whether it was. -/
def accept (kind : Token.Kind) : Parser Bool := do
  if (← peek).kind = kind then
    let _ ← advance
    return true
  else
    return false

def skipSemicolons : Parser Unit :=
  fun tokens => .ok ((), tokens.dropWhile (·.kind == .semicolon))

/-! ## Expressions

`whole` reads an expression of any kind, one level further down. -/

/-- Items separated by commas up to the closing token, which stays. A comma may follow the last
item. -/
def items (whole : Parser Expr) (closing : Token.Kind) : Nat → Parser (List Expr)
  | 0 => refuse .unendedTokens
  | n + 1 => do
    if (← peek).kind = closing then
      return []
    else
      let item ← whole
      if ← accept .comma then
        return item :: (← items whole closing n)
      else
        return [item]

/-- Arguments and their closing parenthesis. -/
def arguments (whole : Parser Expr) (n : Nat) : Parser (List Expr) := do
  let args ← items whole .closeParen n
  let _ ← expect .closeParen .argumentsUnclosed
  return args

/-- A literal, a name, an array, an expression in parentheses or a construction. -/
def primary (whole : Parser Expr) (n : Nat) : Parser Expr := do
  let t ← peek
  match t.kind with
  | .number => do
    let _ ← advance
    return .number (Number.ofText t.value) t
  | .string => do
    let _ ← advance
    return .string t.value t
  | .boolean => do
    let _ ← advance
    return .boolean (t.value == "true") t
  | .null => do
    let _ ← advance
    return .null t
  | .identifier => do
    let _ ← advance
    return .ident t.value t
  | .openBracket => do
    let _ ← advance
    let elements ← items whole .closeBracket n
    let _ ← expect .closeBracket .arrayUnclosed
    return .array elements t
  | .openParen => do
    let _ ← advance
    let e ← whole
    let _ ← expect .closeParen .groupUnclosed
    return e
  | .newWord => do
    let _ ← advance
    let name ← expect .identifier .newClassExpected
    let _ ← expect .openParen (.newArgumentsExpected name.value)
    let args ← arguments whole n
    return .construct name.value args t
  | .endOfInput => refuse .expressionMissing
  | _ => refuse (.expressionExpected t.value)

/-- Any number of calls, accesses and indexes after an expression. -/
def suffixes (whole : Parser Expr) : Nat → Expr → Parser Expr
  | 0, _ => refuse .unendedTokens
  | n + 1, e => do
    let t ← peek
    match t.kind with
    | .openParen => do
      let _ ← advance
      let args ← arguments whole n
      suffixes whole n (.call e args e.token)
    | .dot => do
      let _ ← advance
      let property ← expect .identifier .propertyNameExpected
      if ← accept .openParen then
        let args ← arguments whole n
        suffixes whole n (.method e property.value args property)
      else
        suffixes whole n (.member e property.value property)
    | .openBracket => do
      let _ ← advance
      let position ← whole
      let _ ← expect .closeBracket .indexUnclosed
      suffixes whole n (.index e position t)
    | _ => return e

def operand (whole : Parser Expr) (n : Nat) : Parser Expr := do
  suffixes whole n (← primary whole n)

/-- An operand after any number of minus signs. -/
def unary (whole : Parser Expr) (n : Nat) : Nat → Parser Expr
  | 0 => refuse .unendedTokens
  | m + 1 => do
    let t ← peek
    if t.kind = .minus then
      let _ ← advance
      return .negate (← unary whole n m) t
    else
      operand whole n

/-- The operators of one precedence, by their tokens. -/
abbrev Operators := Token.Kind → Option BinaryOp

def factorOperators : Operators
  | .star => some .multiply
  | .slash => some .divide
  | _ => none

def termOperators : Operators
  | .plus => some .add
  | .minus => some .subtract
  | _ => none

def orderOperators : Operators
  | .less => some .less
  | .lessEqual => some .lessEqual
  | .greater => some .greater
  | .greaterEqual => some .greaterEqual
  | _ => none

def equalityOperators : Operators
  | .equal => some .equal
  | .notEqual => some .notEqual
  | _ => none

/-- Extends an expression to the right by operators of one precedence, grouping to the left. -/
def chain (operators : Operators) (part : Parser Expr) : Nat → Expr → Parser Expr
  | 0, _ => refuse .unendedTokens
  | n + 1, left => do
    let t ← peek
    match operators t.kind with
    | none => return left
    | some op => do
      let _ ← advance
      let right ← part
      chain operators part n (.binary op left right t)

/-- Parts joined by operators of one precedence. -/
def joined (operators : Operators) (part : Parser Expr) (n : Nat) : Parser Expr := do
  chain operators part n (← part)

/-- The four precedences of binary operators, the tightest innermost. -/
def equality (whole : Parser Expr) (n : Nat) : Parser Expr :=
  joined equalityOperators
    (joined orderOperators
      (joined termOperators
        (joined factorOperators (unary whole n n) n) n) n) n

/-- An expression, or an assignment to one. The target is checked before the value is read. -/
def assignment (whole : Parser Expr) (n : Nat) : Parser Expr := do
  let left ← equality whole n
  let t ← peek
  if t.kind = .assign then
    if left.isTarget then
      let _ ← advance
      return .assign left (← whole) t
    else
      refuse (.invalidTarget left.text)
  else
    return left

def expression : Nat → Parser Expr
  | 0 => refuse .unendedTokens
  | n + 1 => assignment (expression n) n

/-! ## Statements

`expr` reads an expression, and `stmt` a statement one level further down. -/

/-- Statements up to a closing brace or the end of the input, which stays. -/
def statements (stmt : Parser Stmt) : Nat → Parser (List Stmt)
  | 0 => refuse .unendedTokens
  | n + 1 => do
    skipSemicolons
    let t ← peek
    if t.kind = .closeBrace ∨ t.kind = .endOfInput then
      return []
    else
      let s ← stmt
      return s :: (← statements stmt n)

/-- Statements in braces. -/
def block (stmt : Parser Stmt) (n : Nat) : Parser (List Stmt) := do
  let _ ← expect .openBrace .blockExpected
  let body ← statements stmt n
  let _ ← expect .closeBrace .blockUnclosed
  return body

/-- One or more parameters after those already seen, all of different names. -/
def parameters (function : Text) : Nat → List Text → Parser (List Text)
  | 0, _ => refuse .unendedTokens
  | n + 1, seen => do
    let t ← peek
    if t.kind ≠ .identifier then
      refuse .parameterNameExpected
    else if t.value ∈ seen then
      refuse (.duplicateParameter t.value function)
    else
      let _ ← advance
      if ← accept .comma then
        parameters function n (seen ++ [t.value])
      else
        return seen ++ [t.value]

/-- A function after the word that announces it. -/
def function (stmt : Parser Stmt) (n : Nat) : Parser Stmt := do
  let name ← expect .identifier .functionNameExpected
  let _ ← expect .openParen (.parametersExpected name.value)
  let params ←
    if (← peek).kind = .closeParen then pure [] else parameters name.value n []
  let _ ← expect .closeParen .parametersUnclosed
  let body ← block stmt n
  return .func name.value params body name

/-- The functions of a class, up to a closing brace or the end of the input, which stays. -/
def members (stmt : Parser Stmt) (n : Nat) : Nat → Parser (List Stmt)
  | 0 => refuse .unendedTokens
  | m + 1 => do
    skipSemicolons
    let t ← peek
    if t.kind = .closeBrace ∨ t.kind = .endOfInput then
      return []
    else if t.kind = .funcWord then
      let _ ← advance
      let member ← function stmt n
      return member :: (← members stmt n m)
    else
      refuse .methodExpected

/-- A class after the word that announces it. -/
def classDefinition (stmt : Parser Stmt) (n : Nat) : Parser Stmt := do
  let name ← expect .identifier .classNameExpected
  let _ ← expect .openBrace (.classBodyExpected name.value)
  let body ← members stmt n n
  let _ ← expect .closeBrace (.classUnclosed name.value)
  return .classDef name.value body name

/-- A `return` after its word `t`. The value may be missing at the end of the statement. -/
def returned (expr : Parser Expr) (t : Token) : Parser Stmt := do
  let next := (← peek).kind
  let value ←
    if next = .semicolon ∨ next = .closeBrace ∨ next = .endOfInput then pure .hole else expr
  let _ ← accept .semicolon
  return .ret value t

/-- A condition and its branches, from the word that announces it. A further condition after an
`else` is the only statement of the branch it stands for. -/
def conditional (expr : Parser Expr) (stmt : Parser Stmt) (n : Nat) : Nat → Parser Stmt
  | 0 => refuse .unendedTokens
  | m + 1 => do
    let t ← advance
    let condition ← expr
    let thenBody ← block stmt n
    match (← peek).kind with
    | .elseifWord => do
      let next ← conditional expr stmt n m
      return .branch condition thenBody true [next] t
    | .elseWord => do
      let _ ← advance
      if (← peek).kind = .ifWord then
        let next ← conditional expr stmt n m
        return .branch condition thenBody true [next] t
      else
        let elseBody ← block stmt n
        return .branch condition thenBody true elseBody t
    | _ => return .branch condition thenBody false [] t

/-- A `while` loop after its word `t`. -/
def whileLoop (expr : Parser Expr) (stmt : Parser Stmt) (n : Nat) (t : Token) : Parser Stmt := do
  let condition ← expr
  let body ← block stmt n
  return .whileLoop condition body t

/-- The first part of a `for` header. -/
def initializer (expr : Parser Expr) : Parser Stmt := do
  let t ← peek
  if t.kind = .semicolon then return .hole else return .expr (← expr) t

/-- A `for` loop after its word `t`. Its header must hold a condition. -/
def forLoop (expr : Parser Expr) (stmt : Parser Stmt) (n : Nat) (t : Token) : Parser Stmt := do
  let _ ← expect .openParen .loopHeaderExpected
  let init ← initializer expr
  let _ ← expect .semicolon .initializerUnclosed
  let condition ←
    if (← peek).kind = .semicolon then refuse .conditionExpected else expr
  let _ ← expect .semicolon .conditionUnclosed
  let post ← if (← peek).kind = .closeParen then pure .hole else expr
  let _ ← expect .closeParen .loopHeaderUnclosed
  let body ← block stmt n
  return .forLoop init condition post body t

/-- An expression as a statement, with the semicolon that may end it. -/
def expressionStatement (expr : Parser Expr) (t : Token) : Parser Stmt := do
  let e ← expr
  let _ ← accept .semicolon
  return .expr e t

def statementWith (expr : Parser Expr) (stmt : Parser Stmt) (n : Nat) : Parser Stmt := do
  let t ← peek
  match t.kind with
  | .funcWord => do
    let _ ← advance
    function stmt n
  | .classWord => do
    let _ ← advance
    classDefinition stmt n
  | .returnWord => do
    let _ ← advance
    returned expr t
  | .ifWord => conditional expr stmt n n
  | .whileWord => do
    let _ ← advance
    whileLoop expr stmt n t
  | .forWord => do
    let _ ← advance
    forLoop expr stmt n t
  | .closeBrace => refuse .strayBrace
  | .endOfInput => refuse .endOfInput
  | _ => expressionStatement expr t

def statement : Nat → Parser Stmt
  | 0 => refuse .unendedTokens
  | n + 1 => statementWith (expression (n + 1)) (statement n) n

/-- Statements up to the end of the input. -/
def program (stmt : Parser Stmt) : Nat → Parser (List Stmt)
  | 0 => refuse .unendedTokens
  | n + 1 => do
    skipSemicolons
    if (← peek).kind = .endOfInput then
      return []
    else
      let s ← stmt
      return s :: (← program stmt n)

end Parser

namespace Program

/-- What a parser sees of a token list. A list without an end goes on with its last token, for
as long as it could take to close every phrase that the list opens. -/
def continued (tokens : List Token) : List Token :=
  match tokens.getLast? with
  | none => [⟨.endOfInput, [], ⟨"<eof>", 0, 0, 0, none⟩⟩]
  | some t =>
    if t.kind = .endOfInput then tokens else tokens ++ List.replicate (tokens.length + 2) t

/-- The program that a token list spells. -/
def parse (tokens : List Token) : Except SyntaxError Program :=
  let input := continued tokens
  let size := input.length + 1
  match Parser.program (Parser.statement size) size input with
  | .ok (body, _) => .ok ⟨tokens.headD {}, body⟩
  | .error refusal => .error ⟨refusal.complaint, (refusal.rest.headD {}).location⟩

end Program

end Script
