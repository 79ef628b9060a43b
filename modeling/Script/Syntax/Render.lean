import Script.Syntax
import Script.Number.Decimal

/-!
# Expressions as text

The one-line text of a tree: every operator is parenthesised, so the text shows how the source
was grouped. Statements show their head only.
-/

namespace Script

mutual

/-- The text of an expression. A number is spelled as its token spells it, and a string stands
between quotes as it is. -/
def Expr.text : Expr → Text
  | .hole => "<null>"
  | .number value token => if token.value.isEmpty then value.fixedText else token.value
  | .string value _ => "\"" ++ value ++ "\""
  | .boolean value _ => if value then "true" else "false"
  | .null _ => "null"
  | .ident name _ => name
  | .negate operand _ => "(-" ++ operand.text ++ ")"
  | .binary op left right _ =>
    "(" ++ left.text ++ " " ++ Text.ofString op.symbol ++ " " ++ right.text ++ ")"
  | .assign target value _ => "(" ++ target.text ++ " = " ++ value.text ++ ")"
  | .call callee args _ => callee.text ++ "(" ++ Text.join ", " (Expr.texts args) ++ ")"
  | .method object name args _ =>
    object.text ++ "." ++ name ++ "(" ++ Text.join ", " (Expr.texts args) ++ ")"
  | .member object property _ => object.text ++ "." ++ property
  | .index object position _ => object.text ++ "[" ++ position.text ++ "]"
  | .array items _ => "[" ++ Text.join ", " (Expr.texts items) ++ "]"
  | .construct className args _ =>
    "new " ++ className ++ "(" ++ Text.join ", " (Expr.texts args) ++ ")"

def Expr.texts : List Expr → List Text
  | [] => []
  | e :: rest => e.text :: Expr.texts rest

end

/-- The text of an expression where it may be left out. -/
def Expr.optionalText : Expr → Text
  | .hole => []
  | e => e.text

/-- The head of a statement. -/
def Stmt.text : Stmt → Text
  | .hole => []
  | .expr e _ => e.text
  | .func name params _ _ => "func " ++ name ++ "(" ++ Text.join ", " params ++ ")"
  | .classDef name _ _ => "class " ++ name
  | .ret value _ => if value.isHole then "return" else "return " ++ value.text
  | .branch condition _ _ _ _ => "if " ++ condition.text
  | .whileLoop condition _ _ => "while " ++ condition.text
  | .forLoop init condition post _ _ =>
    "for (" ++ init.text ++ "; " ++ condition.optionalText ++ "; " ++ post.optionalText ++ ")"

end Script
