import Script.Eval.Expr
import Script.Syntax.MapTokens

/-!
# Evaluating statements
-/

namespace Script

namespace Env

open Evaluation

variable {M : Type → Type} [Evaluation M]

/-- Repeats a body while a condition holds, for at most `n` tests of the condition. A body that
returns ends the repetition. -/
@[specialize]
def repeatWhile (condition : M Bool) (body : M Flow) : Nat → M Flow
  | 0 => exhausted
  | n + 1 => do
    if ← condition then
      match ← body with
      | .normal => repeatWhile condition body n
      | .returned v => return .returned v
    else
      return .normal

/-- The function that a declaration makes, with a copy of the body for its own. -/
@[specialize]
def makeFunction (name : Text) (params : List Text) (body : List Stmt) (token : Token) :
    M Function := do
  let id ← freshBody
  return ⟨name, params, some ⟨id, name, params, Stmt.copyAll body⟩, token⟩

/-- Adds the methods of a class to its properties; of two with one name the later stays. -/
@[specialize]
def addMembers (className : Text) (token : Token) :
    List Stmt → Table Value → M (Table Value)
  | [], fields => return fields
  | .func name params body t :: rest, fields => do
    let f ← makeFunction name params body t
    addMembers className token rest (Table.insert name (.function f) fields)
  | .hole :: _, _ => raise (.classMember className) token.location
  | s :: _, _ => raise (.classMember className) s.token.location

/-- Declares a class: its name and its methods. -/
@[specialize]
def declareClass (name : Text) (members : List Stmt) (token : Token) : M Unit := do
  let fields ← addMembers name token members [(nameKey, .string name)]
  declare name (.object fields)

/-- Whether the condition of a loop holds; a missing one always does. -/
@[specialize]
def loopCondition (env : Env M) (condition : Expr) : M Bool := do
  if condition.isHole then return true
  else return (← env.evalExpr condition).isTrue

mutual

@[specialize]
def evalStmt (env : Env M) : Stmt → M Flow
  | .hole => return .normal
  | .expr e _ => do
    let _ ← env.evalExpr e
    return .normal
  | .func name params body t => do
    let f ← makeFunction name params body t
    declare name (.function f)
    return .normal
  | .classDef name members t => do
    declareClass name members t
    return .normal
  | .ret value _ => return .returned (← env.evalExpr value)
  | .branch condition thenBody hasElse elseBody _ => do
    if (← env.evalExpr condition).isTrue then evalBlock env thenBody
    else if hasElse then evalBlock env elseBody
    else return .normal
  | .whileLoop condition body _ =>
    repeatWhile (return (← env.evalExpr condition).isTrue) (evalBlock env body) env.rounds
  | .forLoop init condition post body _ => do
    match ← evalStmt env init with
    | .returned v => return .returned v
    | .normal =>
      repeatWhile (env.loopCondition condition)
        (do
          match ← evalBlock env body with
          | .returned v => return .returned v
          | .normal =>
            let _ ← env.evalExpr post
            return .normal)
        env.rounds

/-- Statements in order, up to the first that returns. -/
@[specialize]
def evalBlock (env : Env M) : List Stmt → M Flow
  | [] => return .normal
  | s :: rest => do
    match ← evalStmt env s with
    | .normal => evalBlock env rest
    | .returned v => return .returned v

end

end Env

/-- Executes a function body. Each body inside it has one round less. -/
@[specialize]
def runBody {M : Type → Type} [Evaluation M] (rules : Rules) : Nat → List Stmt → M Flow
  | 0, _ => Evaluation.exhausted
  | n + 1, body => Env.evalBlock ⟨rules, n, runBody rules n⟩ body

/-- The environment of a run of at most `rounds` rounds. -/
@[specialize]
def Rules.env {M : Type → Type} [Evaluation M] (rules : Rules) (rounds : Nat) : Env M :=
  ⟨rules, rounds, runBody rules rounds⟩

end Script
