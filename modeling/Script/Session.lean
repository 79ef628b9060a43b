import Script.Eval.Stmt

/-!
# Sessions

What a host does with programs: it evaluates them one after the other, calls their functions
and looks at the machine between these steps. Between two steps the machine's frame holds the
global variables.
-/

namespace Script

namespace Env

open Evaluation

variable {M : Type → Type} [Evaluation M]

/-- Evaluates the statements of a program in order. A `return` outside of functions ends it. -/
def evaluate (env : Env M) (program : Program) : M Unit := do
  let _ ← env.evalBlock program.body

/-- The place of faults that concern the start of a program as a whole. -/
def entry : Location :=
  ⟨"<entry>", 1, 1, 4, none⟩

/-- The function that a program starts with. -/
def mainName : Text := "main"

/-- Calls the function that a program starts with, which takes one parameter. -/
def callMain (env : Env M) (args : Value) : M Value := do
  match ← declared? mainName with
  | none => raise .undefinedMain entry
  | some (.function f) =>
    if f.params.length = 1 then env.call f [args] f.token
    else raise (.mainArity f.params.length) f.token.location
  | some v => raise (.notFunction mainName v.kind) entry

/-- Evaluates a program and starts it with an array of strings. -/
def runMain (env : Env M) (program : Program) (args : List Text) : M Value := do
  env.evaluate program
  env.callMain (.array (args.map .string))

end Env

/-- The rules of a host and the machine it works with. -/
structure Session where
  rules : Rules := {}
  machine : Machine := {}

namespace Session

variable {α : Type}

/-- The outcome of an action of at most `rounds` rounds. -/
def perform (s : Session) (rounds : Nat) (action : Env → Eval α) : Outcome α :=
  action (s.rules.env rounds) s.machine

/-- The session after an outcome. An action that was given up leaves it unchanged. -/
def next (s : Session) : Outcome α → Session
  | .done _ m => { s with machine := m }
  | .fault _ m => { s with machine := m }
  | .exhausted => s

/-- Forgets what has been printed. -/
def clearOutput (s : Session) : Session :=
  { s with machine := { s.machine with printed := [] } }

/-- Sets a global variable. -/
def setGlobal (s : Session) (name : Text) (value : Value) : Session :=
  { s with machine := { s.machine with frame := Table.insert name value s.machine.frame } }

/-- Declares a function or class. -/
def declare (s : Session) (name : Text) (value : Value) : Session :=
  { s with machine := { s.machine with heap := Table.insert name value s.machine.heap } }

/-- Adds a built-in function, or replaces the one of the same name. -/
def addNative (s : Session) (name : Text) (native : Native) : Session :=
  { s with rules := { s.rules with natives := Table.insert name native s.rules.natives } }

/-- Changes the limit on nested calls. -/
def setLimit (s : Session) (limit : Nat) : Session :=
  { s with rules := s.rules.withLimit limit }

/-- The function that a host means by a name. -/
def functionNamed (s : Session) (name : Text) : Option Function :=
  match Table.get? s.machine.heap name with
  | some (.function f) => some f
  | _ => none

end Session

end Script
