import Script.Engine.Slots
import Script.Eval.Call
import Script.Value.Literal

/-!
# Calls, texts and built-in functions on the memory

Arguments and receivers are bound as they are: what is bound is what has just been evaluated, and
nothing else refers to it.
-/

namespace Script

/-- The rules, the rounds that a single repetition may take, and how bodies are executed at a
level. A body that returns ends with a word. -/
structure Engine where
  rules : Rules
  rounds : Nat
  run : Nat → List Stmt → Exec (Option Word)

namespace Engine

open Exec

/-- Executes the body of a function in a given frame, unless too many bodies are being executed
already. Gives the result and the frame at the end. -/
def execute (g : Engine) (f : Function) (frame : Table Word) (token : Token) :
    Exec (Word × Table Word) := do
  if g.rules.limit ≤ (← depth) then
    raise (.depthExceeded g.rules.limit f.name) token.location
  else
    let (returned, final) ← inFrame frame fun level => g.run level f.stmts
    return (returned.getD .null, final)

/-- Calls a function with as many arguments as it has parameters. -/
def call (g : Engine) (f : Function) (args : List Word) (token : Token) : Exec Word := do
  let (result, _) ← g.execute f (Frame.bind [] f.params args) token
  return result

/-- The frame of a method: the receiver under its own name in place of the first parameter,
then the arguments. -/
def receiverFrame (f : Function) (receiver : Word) (args : List Word) : Table Word :=
  Frame.bind [(selfName, receiver)] f.params.tail args

/-- Calls a method, or a constructor without regard to its receiver at the end. -/
def callMethod (g : Engine) (f : Function) (receiver : Word) (args : List Word)
    (token : Token) : Exec Word := do
  let (result, _) ← g.execute f (receiverFrame f receiver args) token
  return result

/-- Initialises a copy of a class; the instance is what the receiver's name holds at the end. -/
def instantiate (g : Engine) (template : Word) (init : Function) (args : List Word)
    (token : Token) : Exec Word := do
  let self ← copy template
  let (_, final) ← g.execute init (receiverFrame init self args) token
  return (Table.get? final selfName).getD .null

/-- Calls a function that a host or another function asks for. -/
def invoke (g : Engine) (f : Option Function) (args : List Word) (token : Token) : Exec Word :=
  match f with
  | none => raise .missingFunction token.location
  | some f =>
    if args.length = f.params.length then g.call f args token
    else raise (.functionArity f.name f.params.length args.length) token.location

/-- The function that has been declared under a name. -/
def declaredFunction (name : Text) : Exec (Option Function) := do
  match ← declared? name with
  | some (.function f) => return some f
  | _ => return none

/-! ## Texts -/

/-- Executes the display method of an object on a copy of the object. -/
def callDisplay (g : Engine) (f : Function) (fields : Table Value) : Exec Word := do
  let self ← build (.object fields)
  let (result, _) ← g.execute f [(selfName, self)] f.token
  return result

section

variable (g : Engine) (again : Word → Exec Text)

mutual

/-- The text of a value. The result of a display method that is no string is shown by `again`. -/
def displayWith (standing : Standing) : Value → Exec Text
  | .null => return "null"
  | .number x => return x.text
  | .string s => return standing.stringText s
  | .boolean b => return if b then "true" else "false"
  | .array items => return arrayText (← displayItems items)
  | .nameRef name => return name
  | .function f => return f.text
  | .object fields =>
    match Table.get? fields displayKey with
    | some (.function f) => do
      match ← g.callDisplay f fields with
      | .string s => return s
      | other => again other
    | _ => return objectText (← displayFields fields)

def displayItems : List Value → Exec (List Text)
  | [] => return []
  | item :: rest => do
    let text ← displayWith .nested item
    return text :: (← displayItems rest)

def displayFields : List (Text × Value) → Exec (List Text)
  | [] => return []
  | (key, value) :: rest => do
    let text ← displayWith .nested value
    return (key ++ ": " ++ text) :: (← displayFields rest)

end

end

/-- The text of what a word stands for, with at most `n` display methods one after the other. No
display method can change the value, so all of it is read at the start. -/
def displayWithin (g : Engine) : Nat → Word → Exec Text
  | 0, _ => exhausted
  | n + 1, w => do displayWith g (displayWithin g n) .alone (← view w)

/-- The text of what a word stands for. -/
def display (g : Engine) (w : Word) : Exec Text :=
  displayWithin g g.rounds w

def displayAll (g : Engine) : List Word → Exec (List Text)
  | [] => return []
  | w :: rest => do
    let text ← g.display w
    return text :: (← displayAll g rest)

/-! ## Built-in functions -/

/-- The single argument of a built-in function. -/
def oneArgument (name : Text) (args : List Word) (token : Token) : Exec Word :=
  match args with
  | [w] => return w
  | _ => raise (.nativeArity name 1 args.length) token.location

/-- The two arguments of a built-in function. -/
def twoArguments (name : Text) (args : List Word) (token : Token) : Exec (Word × Word) :=
  match args with
  | [w, w'] => return (w, w')
  | _ => raise (.nativeArity name 2 args.length) token.location

/-- A copy of an array with a copy of one more word at its end. -/
def extended (a : Address) (w : Word) : Exec Word := do
  match ← copy (.array a) with
  | .array b => do
    let last ← copy w
    return .array (← alloc (.items ((← items b) ++ [last])))
  | other => return other

/-- The result of a built-in function. A line is printed only once all its texts are there. -/
def applyNative (g : Engine) (native : Native) (args : List Word) (token : Token) :
    Exec Word :=
  match native with
  | .print => do
    let texts ← g.displayAll args
    change (.print (Text.join " " texts ++ "\n"))
    return .null
  | .len => do
    match ← oneArgument "len" args token with
    | .array a => return .number (Number.ofNat (← items a).length)
    | .string s => return .number (Number.ofNat s.length)
    | w => raise (.lenArgument w.kind) token.location
  | .push => do
    match ← twoArguments "push" args token with
    | (.array a, w) => extended a w
    | (w, _) => raise (.pushArgument w.kind) token.location
  | .str => do
    return .string (← g.display (← oneArgument "str" args token))
  | .type => do
    let w ← oneArgument "type" args token
    return .string (Text.ofString w.kind.name)
  | .constant v => build v
  | .gather => return .array (← alloc (.items args))
  | .forward target => do
    g.invoke (← declaredFunction target) args token

end Engine

end Script
