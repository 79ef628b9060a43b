import Script.Number
import Script.Token

/-!
# Program trees

Expressions and statements, each with the token it is reported at. A hole stands for a part
that is not there: the value of a bare `return`, the first or last part of a `for` header, and
anything that a tree built by hand leaves out. A hole evaluates to null and does nothing.
-/

namespace Script

inductive BinaryOp where
  | add | subtract | multiply | divide
  | equal | notEqual | less | lessEqual | greater | greaterEqual
  deriving DecidableEq

def BinaryOp.symbol : BinaryOp → String
  | .add => "+"
  | .subtract => "-"
  | .multiply => "*"
  | .divide => "/"
  | .equal => "=="
  | .notEqual => "!="
  | .less => "<"
  | .lessEqual => "<="
  | .greater => ">"
  | .greaterEqual => ">="

inductive Expr where
  | hole
  | number (value : Number) (token : Token)
  | string (value : Text) (token : Token)
  | boolean (value : Bool) (token : Token)
  | null (token : Token)
  | ident (name : Text) (token : Token)
  | negate (operand : Expr) (token : Token)
  | binary (op : BinaryOp) (left right : Expr) (token : Token)
  | assign (target value : Expr) (token : Token)
  | call (callee : Expr) (args : List Expr) (token : Token)
  | method (object : Expr) (name : Text) (args : List Expr) (token : Token)
  | member (object : Expr) (property : Text) (token : Token)
  | index (object position : Expr) (token : Token)
  | array (items : List Expr) (token : Token)
  | construct (className : Text) (args : List Expr) (token : Token)
  deriving Inhabited

inductive Stmt where
  | hole
  | expr (e : Expr) (token : Token)
  | func (name : Text) (params : List Text) (body : List Stmt) (token : Token)
  | classDef (name : Text) (members : List Stmt) (token : Token)
  | ret (value : Expr) (token : Token)
  | branch (condition : Expr) (thenBody : List Stmt) (hasElse : Bool) (elseBody : List Stmt)
      (token : Token)
  | whileLoop (condition : Expr) (body : List Stmt) (token : Token)
  | forLoop (init : Stmt) (condition post : Expr) (body : List Stmt) (token : Token)
  deriving Inhabited

/-- The token an expression is reported at; a hole has none of its own. -/
def Expr.token : Expr → Token
  | .hole => {}
  | .number _ t | .string _ t | .boolean _ t | .null t | .ident _ t | .negate _ t
  | .binary _ _ _ t | .assign _ _ t | .call _ _ t | .method _ _ _ t | .member _ _ t
  | .index _ _ t | .array _ t | .construct _ _ t => t

def Expr.isHole : Expr → Bool
  | .hole => true
  | _ => false

/-- The expressions that can stand left of an assignment sign. -/
def Expr.isTarget : Expr → Bool
  | .ident .. | .index .. | .member .. => true
  | _ => false

/-- The token a statement is reported at. -/
def Stmt.token : Stmt → Token
  | .hole => {}
  | .expr _ t | .func _ _ _ t | .classDef _ _ t | .ret _ t | .branch _ _ _ _ t
  | .whileLoop _ _ t | .forLoop _ _ _ _ t => t

/-- A whole program, reported at its first token. -/
structure Program where
  token : Token
  body : List Stmt

end Script
