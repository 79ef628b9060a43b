import Script.Eval.Call
import Script.Value.Literal

/-!
# Texts of values

An object with a display method is shown as what the method returns; every other value has a
fixed text. Showing a value can therefore execute function bodies.
-/

namespace Script.Env

open Evaluation

variable {M : Type → Type} [Evaluation M]

section

variable (env : Env M) (again : Value → M Text)

mutual

/-- The text of a value. The result of a display method that is no string is shown by `again`. -/
@[specialize]
def displayWith (standing : Standing) : Value → M Text
  | .null => return "null"
  | .number x => return x.text
  | .string s => return standing.stringText s
  | .boolean b => return if b then "true" else "false"
  | .array items => return arrayText (← displayItems items)
  | .nameRef name => return name
  | .function f => return f.text
  | .object fields =>
    match Table.get? fields displayKey with
    | some (.function f) => do
      let (result, _) ← env.execute f [(selfName, .object fields)] f.token
      match result with
      | .string s => return s
      | other => again other
    | _ => return objectText (← displayFields fields)

@[specialize]
def displayItems : List Value → M (List Text)
  | [] => return []
  | item :: rest => do
    let text ← displayWith .nested item
    return text :: (← displayItems rest)

@[specialize]
def displayFields : List (Text × Value) → M (List Text)
  | [] => return []
  | (key, value) :: rest => do
    let text ← displayWith .nested value
    return (key ++ ": " ++ text) :: (← displayFields rest)

end

end

/-- The text of a value that stands by itself, with at most `n` display methods one after the
other. -/
@[specialize]
def displayWithin (env : Env M) : Nat → Value → M Text
  | 0, _ => exhausted
  | n + 1, v => displayWith env (displayWithin env n) .alone v

/-- The text of a value that stands by itself. -/
@[specialize]
def display (env : Env M) (v : Value) : M Text :=
  displayWithin env env.rounds v

@[specialize]
def displayAll (env : Env M) : List Value → M (List Text)
  | [] => return []
  | v :: rest => do
    let text ← env.display v
    return text :: (← displayAll env rest)

end Script.Env
