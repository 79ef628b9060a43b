import Script.Engine.Stmt
import Script.Session

/-!
# Hosts on the memory

What a host does with programs. Global variables are those of the first frame. What a host hands in
or takes out are plain values.
-/

namespace Script

namespace Engine

open Exec

/-- Evaluates the statements of a program in order, with the global variables. -/
def evaluate (g : Engine) (program : Program) : Exec Unit := do
  let _ ← g.evalBlock 0 program.body

/-- Calls the function that a program starts with, on a copy of its argument. -/
def callMain (g : Engine) (arg : Word) : Exec Word := do
  match ← declared? Env.mainName with
  | none => raise .undefinedMain Env.entry
  | some (.function f) =>
    if f.params.length = 1 then g.call f [← copy arg] f.token
    else raise (.mainArity f.params.length) f.token.location
  | some w => raise (.notFunction Env.mainName w.kind) Env.entry

/-- Evaluates a program and starts it with an array of strings. -/
def runMain (g : Engine) (program : Program) (args : List Text) : Exec Word := do
  g.evaluate program
  g.callMain (← build (.array (args.map .string)))

end Engine

/-- The rules of a host and the runtime it works with. -/
structure Host where
  rules : Rules := {}
  runtime : Runtime := {}

namespace Host

variable {α : Type}

/-- How an action of at most `rounds` rounds ends, and the runtime after it. -/
def perform (h : Host) (rounds : Nat) (action : Engine → Exec α) : Ending α × Runtime :=
  action (h.rules.engine rounds) h.runtime

/-- Forgets what has been printed. -/
def clearOutput (h : Host) : Host :=
  { h with runtime := { h.runtime with printed := [] } }

/-- Puts a value into the memory and then does something with the word for it. -/
def place (h : Host) (value : Value) (change : Word → Change) : Host :=
  match Exec.build value h.runtime with
  | (.done w, c) => { h with runtime := c.apply (change w) }
  | (_, c) => { h with runtime := c }

/-- Sets a global variable. -/
def setGlobal (h : Host) (name : Text) (value : Value) : Host :=
  h.place value (.write (.var 0 name))

/-- Declares a function or class. -/
def declare (h : Host) (name : Text) (value : Value) : Host :=
  h.place value (.define name)

/-- The value of a global variable. -/
def global? (h : Host) (name : Text) : Option Value :=
  h.runtime.value? 0 name

/-- The function or class that has been declared under a name. -/
def declared? (h : Host) (name : Text) : Option Value :=
  h.runtime.declaration? name

/-- Adds a built-in function, or replaces the one of the same name. -/
def addNative (h : Host) (name : Text) (native : Native) : Host :=
  { h with rules := { h.rules with natives := Table.insert name native h.rules.natives } }

/-- Changes the limit on nested calls. -/
def setLimit (h : Host) (limit : Nat) : Host :=
  { h with rules := h.rules.withLimit limit }

/-- The function that a host means by a name. -/
def functionNamed (h : Host) (name : Text) : Option Function :=
  match Table.get? h.runtime.heap name with
  | some (.function f) => some f
  | _ => none

end Host

end Script
