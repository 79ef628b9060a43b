import Script.Env

/-!
# Calls

A call binds its arguments to the parameters in a frame of its own and executes the body there.
-/

namespace Script

/-- Binds names to values in order; a name that comes twice keeps the later value. -/
def Frame.bind {α : Type} (frame : Table α) (params : List Text) (args : List α) : Table α :=
  (params.zip args).foldl (fun f (name, value) => Table.insert name value f) frame

namespace Env

open Evaluation

variable {M : Type → Type} [Evaluation M]

/-- Executes the body of a function in a given frame, unless too many bodies are being executed
already. Gives the result and the frame at the end. -/
@[specialize]
def execute (env : Env M) (f : Function) (frame : Frame) (token : Token) :
    M (Value × Frame) := do
  if env.rules.limit ≤ (← depth) then
    raise (.depthExceeded env.rules.limit f.name) token.location
  else
    let (flow, final) ← inFrame frame (env.run f.stmts)
    return (flow.value, final)

/-- Calls a function with as many arguments as it has parameters. -/
@[specialize]
def call (env : Env M) (f : Function) (args : List Value) (token : Token) : M Value := do
  let (result, _) ← env.execute f (Frame.bind [] f.params args) token
  return result

/-- The frame of a method: the receiver under its own name in place of the first parameter,
then the arguments. -/
def receiverFrame (f : Function) (receiver : Value) (args : List Value) : Frame :=
  Frame.bind [(selfName, receiver)] f.params.tail args

/-- Calls a function that a host or another function asks for. -/
@[specialize]
def invoke (env : Env M) (f : Option Function) (args : List Value) (token : Token) :
    M Value :=
  match f with
  | none => raise .missingFunction token.location
  | some f =>
    if args.length = f.params.length then env.call f args token
    else raise (.functionArity f.name f.params.length args.length) token.location

/-- The function that has been declared under a name. -/
@[specialize]
def declaredFunction (name : Text) : M (Option Function) := do
  match ← declared? name with
  | some (.function f) => return some f
  | _ => return none

end Env

end Script
