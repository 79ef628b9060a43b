import Script.Eval.Display

/-!
# Built-in functions
-/

namespace Script.Env

open Evaluation

variable {M : Type → Type} [Evaluation M]

/-- The single argument of a built-in function. -/
@[specialize]
def oneArgument (name : Text) (args : List Value) (token : Token) : M Value :=
  match args with
  | [v] => return v
  | _ => raise (.nativeArity name 1 args.length) token.location

/-- The two arguments of a built-in function. -/
@[specialize]
def twoArguments (name : Text) (args : List Value) (token : Token) : M (Value × Value) :=
  match args with
  | [v, w] => return (v, w)
  | _ => raise (.nativeArity name 2 args.length) token.location

/-- The result of a built-in function. A line is printed only once all its texts are there. -/
@[specialize]
def applyNative (env : Env M) (native : Native) (args : List Value) (token : Token) :
    M Value :=
  match native with
  | .print => do
    let texts ← env.displayAll args
    print (Text.join " " texts ++ "\n")
    return .null
  | .len => do
    match ← oneArgument "len" args token with
    | .array items => return .number (Number.ofNat items.length)
    | .string s => return .number (Number.ofNat s.length)
    | v => raise (.lenArgument v.kind) token.location
  | .push => do
    match ← twoArguments "push" args token with
    | (.array items, v) => return .array (items ++ [v])
    | (v, _) => raise (.pushArgument v.kind) token.location
  | .str => do
    return .string (← env.display (← oneArgument "str" args token))
  | .type => do
    let v ← oneArgument "type" args token
    return .string (Text.ofString v.kind.name)
  | .constant v => return v
  | .gather => return .array args
  | .forward target => do
    env.invoke (← declaredFunction target) args token

end Script.Env
