import Script.Syntax

/-!
# Changing the tokens of a tree

A tree is built anew, node by node, with a function applied to every token. With the function
that changes nothing this is a copy of the tree; with one that forgets places it is what two
layouts of the same program have in common.
-/

namespace Script

namespace Expr

mutual

/-- An expression with each token changed by `f`. -/
def mapTokens (f : Token → Token) : Expr → Expr
  | .hole => .hole
  | .number value token => .number value (f token)
  | .string value token => .string value (f token)
  | .boolean value token => .boolean value (f token)
  | .null token => .null (f token)
  | .ident name token => .ident name (f token)
  | .negate operand token => .negate (operand.mapTokens f) (f token)
  | .binary op left right token => .binary op (left.mapTokens f) (right.mapTokens f) (f token)
  | .assign target value token => .assign (target.mapTokens f) (value.mapTokens f) (f token)
  | .call callee args token => .call (callee.mapTokens f) (mapTokensAll f args) (f token)
  | .method object name args token =>
    .method (object.mapTokens f) name (mapTokensAll f args) (f token)
  | .member object property token => .member (object.mapTokens f) property (f token)
  | .index object position token =>
    .index (object.mapTokens f) (position.mapTokens f) (f token)
  | .array items token => .array (mapTokensAll f items) (f token)
  | .construct className args token => .construct className (mapTokensAll f args) (f token)

def mapTokensAll (f : Token → Token) : List Expr → List Expr
  | [] => []
  | e :: rest => e.mapTokens f :: mapTokensAll f rest

end

/-- The same expression, built anew. -/
def copy (e : Expr) : Expr :=
  e.mapTokens id

/-- The same expressions, built anew. -/
def copyAll (es : List Expr) : List Expr :=
  mapTokensAll id es

end Expr

namespace Stmt

mutual

/-- A statement with each token changed by `f`. -/
def mapTokens (f : Token → Token) : Stmt → Stmt
  | .hole => .hole
  | .expr e token => .expr (e.mapTokens f) (f token)
  | .func name params body token => .func name params (mapTokensAll f body) (f token)
  | .classDef name members token => .classDef name (mapTokensAll f members) (f token)
  | .ret value token => .ret (value.mapTokens f) (f token)
  | .branch condition thenBody hasElse elseBody token =>
    .branch (condition.mapTokens f) (mapTokensAll f thenBody) hasElse (mapTokensAll f elseBody)
      (f token)
  | .whileLoop condition body token =>
    .whileLoop (condition.mapTokens f) (mapTokensAll f body) (f token)
  | .forLoop init condition post body token =>
    .forLoop (init.mapTokens f) (condition.mapTokens f) (post.mapTokens f) (mapTokensAll f body)
      (f token)

def mapTokensAll (f : Token → Token) : List Stmt → List Stmt
  | [] => []
  | s :: rest => s.mapTokens f :: mapTokensAll f rest

end

/-- The same statement, built anew. -/
def copy (s : Stmt) : Stmt :=
  s.mapTokens id

/-- The same statements, built anew. -/
def copyAll (stmts : List Stmt) : List Stmt :=
  mapTokensAll id stmts

end Stmt

end Script
