import Script.Engine.Expr
import Script.Eval.Stmt

/-!
# Evaluating statements on the memory
-/

namespace Script

namespace Engine

open Exec

/-- Repeats a body while a condition holds, for at most `n` tests of the condition. A body that
returns ends the repetition. -/
def repeatWhile (condition : Exec Bool) (body : Exec (Option Word)) : Nat → Exec (Option Word)
  | 0 => exhausted
  | n + 1 => do
    if ← condition then
      match ← body with
      | none => repeatWhile condition body n
      | some w => return some w
    else
      return none

/-- The function that a declaration makes, with a copy of the body for its own. -/
def makeFunction (name : Text) (params : List Text) (body : List Stmt) (token : Token) :
    Exec Function := do
  let id ← freshBody
  return ⟨name, params, some ⟨id, name, params, Stmt.copyAll body⟩, token⟩

/-- Adds the methods of a class to its properties; of two with one name the later stays. -/
def addMembers (className : Text) (token : Token) : List Stmt → Table Word → Exec (Table Word)
  | [], fields => return fields
  | .func name params body t :: rest, fields => do
    let f ← makeFunction name params body t
    addMembers className token rest (Table.insert name (.function f) fields)
  | .hole :: _, _ => raise (.classMember className) token.location
  | s :: _, _ => raise (.classMember className) s.token.location

/-- Whether the condition of a branch or loop holds. -/
def holds (g : Engine) (level : Nat) (condition : Expr) : Exec Bool := do
  return (← g.evalExpr level condition).shell.isTrue

/-- Whether the condition of a loop holds; a missing one always does. -/
def loopCondition (g : Engine) (level : Nat) (condition : Expr) : Exec Bool := do
  if condition.isHole then return true
  else g.holds level condition

mutual

def evalStmt (g : Engine) (level : Nat) (s : Stmt) : Exec (Option Word) := do
  change (.start s)
  match s with
  | .hole => return none
  | .expr e _ => do
    let _ ← g.evalExpr level e
    return none
  | .func name params body t => do
    let f ← makeFunction name params body t
    change (.declare s (.function f))
    return none
  | .classDef name members t => do
    let fields ← addMembers name t members [(nameKey, .string name)]
    change (.declare s (.object (← alloc (.fields fields))))
    return none
  | .ret value _ => do
    let w ← g.evalExpr level value
    return some w
  | .branch condition thenBody hasElse elseBody _ => do
    if ← g.holds level condition then evalBlock g level thenBody
    else if hasElse then evalBlock g level elseBody
    else return none
  | .whileLoop condition body _ =>
    repeatWhile (g.holds level condition) (evalBlock g level body) g.rounds
  | .forLoop init condition post body _ => do
    match ← evalStmt g level init with
    | some w => return some w
    | none =>
      repeatWhile (g.loopCondition level condition)
        (do
          match ← evalBlock g level body with
          | some w => return some w
          | none =>
            let _ ← g.evalExpr level post
            return none)
        g.rounds

/-- Statements in order, up to the first that returns. -/
def evalBlock (g : Engine) (level : Nat) : List Stmt → Exec (Option Word)
  | [] => return none
  | s :: rest => do
    match ← evalStmt g level s with
    | none => evalBlock g level rest
    | some w => return some w

end

end Engine

/-- Executes a function body at a level. Each body inside it has one round less. -/
def Engine.runBody (rules : Rules) : Nat → Nat → List Stmt → Exec (Option Word)
  | 0, _, _ => Exec.exhausted
  | n + 1, level, body => Engine.evalBlock ⟨rules, n, runBody rules n⟩ level body

/-- The engine of a run of at most `rounds` rounds. -/
def Rules.engine (rules : Rules) (rounds : Nat) : Engine :=
  ⟨rules, rounds, Engine.runBody rules rounds⟩

end Script
