import Script.Syntax.Render
import Script.Token.Listing

/-!
# Program outlines

A readable dump of a program tree: one record per statement with its kind, head and place, and
the statements inside it indented below.
-/

namespace Script

namespace Stmt

/-- The name of a statement's kind in an outline. -/
def kindName : Stmt → String
  | .hole => "Statement"
  | .expr .. => "ExpressionStatement"
  | .func .. => "FunctionDeclaration"
  | .classDef .. => "ClassDeclaration"
  | .ret .. => "ReturnStatement"
  | .branch .. => "IfStatement"
  | .whileLoop .. => "WhileStatement"
  | .forLoop .. => "ForStatement"

/-- The fields every statement shows. -/
def outlineHead (margin : Text) (s : Stmt) : Text :=
  margin ++ "\x7b\n"
    ++ margin ++ "  \"nodeType\": \"" ++ Text.ofString s.kindName ++ "\",\n"
    ++ margin ++ "  \"source\": \"" ++ escapeText s.text ++ "\",\n"
    ++ margin ++ "  \"token\": \"" ++ escapeText s.token.location.text ++ "\""

/-- A field that holds a list of statements, already written out. -/
def outlineField (margin key items : Text) : Text :=
  ",\n" ++ margin ++ "  \"" ++ key ++ "\": [\n" ++ items ++ margin ++ "  ]"

def outlineFoot (margin : Text) : Text :=
  "\n" ++ margin ++ "\x7d"

mutual

/-- A statement, indented by `indent` spaces. -/
def outline (indent : Nat) : Stmt → Text
  | .hole => Text.spaces indent ++ "null"
  | .func name params body t =>
    let margin := Text.spaces indent
    outlineHead margin (.func name params body t)
      ++ outlineField margin "body" (outlineAll (indent + 4) body) ++ outlineFoot margin
  | .classDef name members t =>
    let margin := Text.spaces indent
    outlineHead margin (.classDef name members t)
      ++ outlineField margin "body" (outlineAll (indent + 4) members) ++ outlineFoot margin
  | .branch condition thenBody hasElse elseBody t =>
    let margin := Text.spaces indent
    outlineHead margin (.branch condition thenBody hasElse elseBody t)
      ++ outlineField margin "then" (outlineAll (indent + 4) thenBody)
      ++ (if hasElse then outlineField margin "else" (outlineAll (indent + 4) elseBody) else [])
      ++ outlineFoot margin
  | .whileLoop condition body t =>
    let margin := Text.spaces indent
    outlineHead margin (.whileLoop condition body t)
      ++ outlineField margin "body" (outlineAll (indent + 4) body) ++ outlineFoot margin
  | .forLoop init condition post body t =>
    let margin := Text.spaces indent
    outlineHead margin (.forLoop init condition post body t)
      ++ outlineField margin "body" (outlineAll (indent + 4) body) ++ outlineFoot margin
  | .expr e t =>
    let margin := Text.spaces indent
    outlineHead margin (.expr e t) ++ outlineFoot margin
  | .ret value t =>
    let margin := Text.spaces indent
    outlineHead margin (.ret value t) ++ outlineFoot margin

/-- Statements one after the other, with commas between them. -/
def outlineAll (indent : Nat) : List Stmt → Text
  | [] => []
  | s :: rest =>
    outline indent s ++ (if rest.isEmpty then "\n" else ",\n") ++ outlineAll indent rest

end

end Stmt

/-- The outline of a program, indented by `indent` spaces. -/
def Program.outline (indent : Nat) (p : Program) : Text :=
  let margin := Text.spaces indent
  margin ++ "\x7b\n"
    ++ margin ++ "  \"type\": \"Program\",\n"
    ++ margin ++ "  \"body\": [\n"
    ++ Stmt.outlineAll (indent + 4) p.body
    ++ margin ++ "  ]\n"
    ++ margin ++ "\x7d\n"

/-- The outline of a program that may be missing. -/
def Program.outline? (indent : Nat) : Option Program → Text
  | some p => p.outline indent
  | none => "\x7b\x7d\n"

end Script
