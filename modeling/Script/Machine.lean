import Script.Fault

/-!
# Machines and evaluations

An evaluation works on a machine: the variables of the running function, the heap of functions
and classes, what has been printed, and how many function bodies are being executed. It ends
with a result or with a fault, and in both cases leaves a machine behind; or it uses up the
number of rounds that it was allowed.
-/

namespace Script

/-- The variables of one function call. There is no enclosing scope. -/
abbrev Frame := Table Value

/-- The functions and classes that have been declared. -/
abbrev Heap := Table Value

structure Machine where
  frame : Frame := []
  heap : Heap := []
  /-- What has been printed, the last piece first. -/
  printed : List Text := []
  /-- How many function bodies are being executed. -/
  depth : Nat := 0
  /-- The number of the next declaration to be executed. -/
  nextBody : Nat := 0

/-- The printed text. -/
def Machine.output (m : Machine) : Text :=
  m.printed.reverse.flatten

inductive Outcome (α : Type) where
  | done (a : α) (m : Machine)
  | fault (f : Fault) (m : Machine)
  | exhausted

/-- What evaluations are made of: the effects on a machine, and the ways to end early. -/
class Evaluation (M : Type → Type) extends Monad M where
  /-- Ends the evaluation for a reason at a place. -/
  raise {α : Type} (cause : Cause) (location : Location) : M α
  /-- Gives up because no rounds are left. -/
  exhausted {α : Type} : M α
  /-- The value of a variable, if it has one. -/
  lookup? (name : Text) : M (Option Value)
  /-- Sets a variable of the running function. -/
  assign (name : Text) (value : Value) : M Unit
  /-- The function or class that has been declared under a name. -/
  declared? (name : Text) : M (Option Value)
  /-- Declares a function or class; an earlier one of the same name is replaced. -/
  declare (name : Text) (value : Value) : M Unit
  /-- A mark for a body that no other declaration has. -/
  freshBody : M BodyId
  print (text : Text) : M Unit
  /-- Runs a body with variables of its own, one level deeper, and gives its variables at the end
  beside its result. The variables and the depth of the caller come back however it ends. -/
  inFrame {α : Type} (frame : Frame) (body : M α) : M (α × Frame)
  /-- The number of bodies that are being executed. -/
  depth : M Nat

namespace Evaluation

variable {M : Type → Type} [Evaluation M] {α : Type}

/-- A checked value, or a fault at the given place. -/
@[inline]
def ofExcept (location : Location) : Except Cause α → M α
  | .ok a => return a
  | .error cause => raise cause location

/-- The value of a variable; null if it has none. -/
@[inline]
def read (name : Text) : M Value := do
  return (← lookup? name).getD .null

/-- A reference to a variable stands for its value; other values stand for themselves. -/
@[inline]
def resolve : Value → M Value
  | .nameRef name => read name
  | v => return v

end Evaluation

/-- An evaluation of type `α` that works on a machine. -/
def Eval (α : Type) := Machine → Outcome α

namespace Eval

variable {α β : Type}

@[always_inline, inline]
protected def pure (a : α) : Eval α :=
  fun m => .done a m

/-- A fault ends the evaluation and keeps the machine as it was at that point. -/
@[always_inline, inline]
protected def bind (x : Eval α) (f : α → Eval β) : Eval β :=
  fun m => match x m with
    | .done a m => f a m
    | .fault e m => .fault e m
    | .exhausted => .exhausted

@[always_inline, inline]
protected def inFrame (frame : Frame) (body : Eval α) : Eval (α × Frame) :=
  fun m => match body { m with frame := frame, depth := m.depth + 1 } with
    | .done a m' => .done (a, m'.frame) { m' with frame := m.frame, depth := m'.depth - 1 }
    | .fault e m' => .fault e { m' with frame := m.frame, depth := m'.depth - 1 }
    | .exhausted => .exhausted

@[always_inline]
instance : Monad Eval where
  pure := Eval.pure
  bind := Eval.bind

@[always_inline]
instance : Evaluation Eval where
  raise cause location := fun m => .fault ⟨cause, location⟩ m
  exhausted := fun _ => .exhausted
  lookup? name := fun m => .done (Table.get? m.frame name) m
  assign name value := fun m => .done () { m with frame := Table.insert name value m.frame }
  declared? name := fun m => .done (Table.get? m.heap name) m
  declare name value := fun m => .done () { m with heap := Table.insert name value m.heap }
  freshBody := fun m => .done (.declared m.nextBody) { m with nextBody := m.nextBody + 1 }
  print text := fun m => .done () { m with printed := text :: m.printed }
  inFrame := Eval.inFrame
  depth := fun m => .done m.depth m

end Eval

end Script
