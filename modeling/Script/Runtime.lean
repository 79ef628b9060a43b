import Script.Env
import Script.Memory

/-!
# Runtimes

The state of a run in full: all frames that are in use, the heap and the memory that they share.
Every change of a runtime is one of a few kinds, and a runtime can keep a record of its changes.
-/

namespace Script

/-- One change of a runtime. -/
inductive Change where
  /-- A new cell. -/
  | alloc (cell : Cell)
  | write (slot : Slot) (w : Word)
  /-- A statement of the program begins. -/
  | start (s : Stmt)
  /-- What a declaration of the program leaves in the heap. -/
  | declare (declaration : Stmt) (w : Word)
  /-- What a host puts into the heap. -/
  | define (name : Text) (w : Word)
  /-- The mark for a body has been used up. -/
  | mark
  | print (text : Text)
  /-- A body begins, with a frame of its own. -/
  | enter (frame : Table Word)
  /-- The body that began last ends. -/
  | leave

structure Runtime where
  /-- The frames in use by their levels. The first one is that of the global variables. -/
  frames : Array (Table Word) := #[[]]
  heap : Table Word := []
  memory : Memory := {}
  /-- What has been printed, the last piece first. -/
  printed : List Text := []
  /-- How many function bodies are being executed. -/
  depth : Nat := 0
  /-- The number of the next declaration to be executed. -/
  nextBody : Nat := 0
  /-- The statement that began last. -/
  statement? : Option Stmt := none
  /-- The changes so far, the last one first, if they are recorded. -/
  record? : Option (List Change) := none

/-- The name under which a declaration stands in the heap. -/
def Stmt.declaredName : Stmt → Text
  | .func name _ _ _ => name
  | .classDef name _ _ => name
  | _ => []

namespace Runtime

/-- The variables at a level. -/
def frame (c : Runtime) (level : Nat) : Table Word :=
  c.frames.getD level []

/-- The value of a variable at a level. -/
def value? (c : Runtime) (level : Nat) (name : Text) : Option Value :=
  (Table.get? (c.frame level) name).bind c.memory.read

/-- The value of the function or class that has been declared under a name. -/
def declaration? (c : Runtime) (name : Text) : Option Value :=
  (Table.get? c.heap name).bind c.memory.read

/-- The printed text. -/
def output (c : Runtime) : Text :=
  c.printed.reverse.flatten

/-- The word in a slot. -/
def load (c : Runtime) : Slot → Word
  | .var level name => (Table.get? (c.frame level) name).getD .null
  | .item a position => (c.memory.items a).getD position .null
  | .field a key => (Table.get? (c.memory.fields a) key).getD .null

/-- The runtime with another word in a slot. -/
def put (c : Runtime) (slot : Slot) (w : Word) : Runtime :=
  match slot with
  | .var level name => { c with frames := c.frames.modify level (Table.insert name w) }
  | .item a position => { c with memory := c.memory.modify a (Cell.setItem position w) }
  | .field a key => { c with memory := c.memory.modify a (Cell.setField key w) }

/-- What a change makes of a runtime, apart from the record. -/
def turn (c : Runtime) : Change → Runtime
  | .alloc cell => { c with memory := c.memory.alloc cell }
  | .write slot w => c.put slot w
  | .start s => { c with statement? := some s }
  | .declare d w => { c with heap := Table.insert d.declaredName w c.heap }
  | .define name w => { c with heap := Table.insert name w c.heap }
  | .mark => { c with nextBody := c.nextBody + 1 }
  | .print text => { c with printed := text :: c.printed }
  | .enter frame => { c with frames := c.frames.push frame, depth := c.depth + 1 }
  | .leave => { c with frames := c.frames.pop, depth := c.depth - 1 }

/-- Adds a change to the record, if there is one. -/
def note (c : Runtime) (change : Change) : Runtime :=
  { c with record? := c.record?.map (change :: ·) }

/-- The runtime after a change. -/
def apply (c : Runtime) (change : Change) : Runtime :=
  (c.note change).turn change

end Runtime

/-! ## Executions -/

/-- How an execution ends: with a result, with a fault, or because no rounds are left. -/
inductive Ending (α : Type) where
  | done (a : α)
  | fault (f : Fault)
  | exhausted

/-- An execution works on a runtime, and leaves one behind however it ends. -/
def Exec (α : Type) := Runtime → Ending α × Runtime

namespace Exec

variable {α β : Type}

@[always_inline, inline]
protected def pure (a : α) : Exec α :=
  fun c => (.done a, c)

@[always_inline, inline]
protected def bind (x : Exec α) (f : α → Exec β) : Exec β :=
  fun c => match x c with
    | (.done a, c) => f a c
    | (.fault e, c) => (.fault e, c)
    | (.exhausted, c) => (.exhausted, c)

@[always_inline]
instance : Monad Exec where
  pure := Exec.pure
  bind := Exec.bind

/-- Ends the execution for a reason at a place. -/
def raise (cause : Cause) (location : Location) : Exec α :=
  fun c => (.fault ⟨cause, location⟩, c)

/-- Gives up because no rounds are left. -/
def exhausted : Exec α :=
  fun c => (.exhausted, c)

/-- Looks at the runtime. -/
@[inline]
def ask (f : Runtime → α) : Exec α :=
  fun c => (.done (f c), c)

def change (change : Change) : Exec Unit :=
  fun c => (.done (), c.apply change)

/-- A new cell, by its address. -/
def alloc (cell : Cell) : Exec Address :=
  fun c => (.done c.memory.size, c.apply (.alloc cell))

/-- A mark for a body that no other declaration has. -/
def freshBody : Exec BodyId :=
  fun c => (.done (.declared c.nextBody), c.apply .mark)

def items (a : Address) : Exec (List Word) :=
  ask fun c => c.memory.items a

def fields (a : Address) : Exec (Table Word) :=
  ask fun c => c.memory.fields a

def depth : Exec Nat :=
  ask fun c => c.depth

def load (slot : Slot) : Exec Word :=
  ask fun c => c.load slot

/-- The word that a variable holds, not a copy of it. -/
def lookup? (level : Nat) (name : Text) : Exec (Option Word) :=
  ask fun c => Table.get? (c.frame level) name

/-- Sets a variable to a word as it is. -/
def assign (level : Nat) (name : Text) (w : Word) : Exec Unit :=
  change (.write (.var level name) w)

/-- The function or class that has been declared under a name. -/
def declared? (name : Text) : Exec (Option Word) :=
  ask fun c => Table.get? c.heap name

/-- Runs a body at a level of its own, and gives its variables at the end beside its result. Its
frame is gone afterwards, unless the execution was given up. -/
@[inline]
def inFrame (frame : Table Word) (body : Nat → Exec α) : Exec (α × Table Word) :=
  fun c =>
    let level := c.frames.size
    match body level (c.apply (.enter frame)) with
    | (.done a, c) =>
      let final := c.frame level
      (.done (a, final), c.apply .leave)
    | (.fault e, c) => (.fault e, c.apply .leave)
    | (.exhausted, c) => (.exhausted, c)

/-! ## Copies -/

/-- The value that a word stands for. -/
def view (w : Word) : Exec Value :=
  fun c => match c.memory.read w with
    | some v => (.done v, c)
    | none => (.exhausted, c)

mutual

/-- Puts a value into the memory, with new cells for all that is in it. -/
def build : Value → Exec Word
  | .null => return .null
  | .number x => return .number x
  | .string s => return .string s
  | .boolean b => return .boolean b
  | .array items => do return .array (← alloc (.items (← buildItems items)))
  | .nameRef name => return .nameRef name
  | .function f => return .function f
  | .object fields => do return .object (← alloc (.fields (← buildFields fields)))

def buildItems : List Value → Exec (List Word)
  | [] => return []
  | v :: rest => do
    let w ← build v
    return w :: (← buildItems rest)

def buildFields : List (Text × Value) → Exec (List (Text × Word))
  | [] => return []
  | (key, v) :: rest => do
    let w ← build v
    return (key, w) :: (← buildFields rest)

end

/-- A copy of what a word stands for. It shares no cell with anything. -/
def copy (w : Word) : Exec Word := do
  build (← view w)

/-- A copy of what a variable holds; null if it holds nothing. -/
def read (level : Nat) (name : Text) : Exec Word := do
  match ← lookup? level name with
  | some w => copy w
  | none => return .null

/-- A reference to a variable stands for a copy of its value; other words stand for themselves. -/
def resolve (level : Nat) : Word → Exec Word
  | .nameRef name => read level name
  | w => return w

end Exec

end Script
