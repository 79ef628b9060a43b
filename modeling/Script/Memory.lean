import Script.Value.Compare

/-!
# Memory

What values are made of while a program runs. An array or an object is a cell of the memory, and
all that refers to it holds its address, so two variables can hold the same cell. Functions are
never changed and need no cells.
-/

namespace Script

abbrev Address := Nat

/-- A value as a variable, an item or a property holds it. -/
inductive Word where
  | null
  | number (x : Number)
  | string (s : Text)
  | boolean (b : Bool)
  | array (address : Address)
  | nameRef (name : Text)
  | function (f : Function)
  | object (address : Address)
  deriving Inhabited

namespace Word

/-- The value that a word is by itself, with nothing in arrays and objects. -/
def shell : Word → Value
  | .null => .null
  | .number x => .number x
  | .string s => .string s
  | .boolean b => .boolean b
  | .array _ => .array []
  | .nameRef name => .nameRef name
  | .function f => .function f
  | .object _ => .object []

def kind (w : Word) : Value.Kind :=
  w.shell.kind

/-- The class name among the properties of an object; empty if there is none. -/
def className (fields : Table Word) : Text :=
  match Table.get? fields nameKey with
  | some (.string name) => name
  | _ => []

end Word

/-- What stands at an address: the items of an array or the properties of an object. -/
inductive Cell where
  | items (words : List Word)
  | fields (entries : Table Word)

/-- Where a word can be put: in a variable, in an array or in an object. Variables are those of a
frame, which is given by its level. -/
inductive Slot where
  | var (level : Nat) (name : Text)
  | item (address : Address) (position : Nat)
  | field (address : Address) (key : Text)

structure Memory where
  cells : Array Cell := #[]

namespace Memory

/-- The number of cells, which is the address of the next one. -/
def size (σ : Memory) : Nat :=
  σ.cells.size

def cell? (σ : Memory) (a : Address) : Option Cell :=
  σ.cells[a]?

/-- The items of an array. -/
def items (σ : Memory) (a : Address) : List Word :=
  match σ.cell? a with
  | some (.items words) => words
  | _ => []

/-- The properties of an object. -/
def fields (σ : Memory) (a : Address) : Table Word :=
  match σ.cell? a with
  | some (.fields entries) => entries
  | _ => []

def alloc (σ : Memory) (cell : Cell) : Memory :=
  ⟨σ.cells.push cell⟩

end Memory

/-- Puts a word at a position of an array. -/
def Cell.setItem (position : Nat) (w : Word) : Cell → Cell
  | .items words => .items (words.set position w)
  | .fields entries => .fields entries

/-- Puts a word under a key of an object, which may be new. -/
def Cell.setField (key : Text) (w : Word) : Cell → Cell
  | .items words => .items words
  | .fields entries => .fields (Table.insert key w entries)

namespace Memory

/-- Changes a cell where it is. All that refers to it sees the change. -/
def modify (σ : Memory) (a : Address) (f : Cell → Cell) : Memory :=
  ⟨σ.cells.modify a f⟩

/-! ## Values -/

/-- The value that a word stands for, if arrays and objects are nested at most `n` deep in it. -/
def readWithin (σ : Memory) : Nat → Word → Option Value
  | n + 1, .array a => do
    return .array (← (σ.items a).mapM (readWithin σ n))
  | n + 1, .object a => do
    return .object (← (σ.fields a).mapM fun entry => do
      return (entry.1, ← readWithin σ n entry.2))
  | 0, .array _ => none
  | 0, .object _ => none
  | _, w => some w.shell

/-- The value that a word stands for. There is none where cells are nested in a circle. -/
def read (σ : Memory) (w : Word) : Option Value :=
  σ.readWithin σ.size w

/-- Whether two lists have the same length and equal parts; undecided if two of the parts are. -/
def equalAll {α : Type} (equal : α → α → Option Bool) : List α → List α → Option Bool
  | [], [] => some true
  | x :: xs, y :: ys => do
    if ← equal x y then equalAll equal xs ys else return false
  | _, _ => some false

/-- Whether two words are equal. A cell is equal to itself, whatever is in it. -/
def equalWithin (σ : Memory) : Nat → Word → Word → Option Bool
  | n + 1, .array a, .array b =>
    if a = b then some true else equalAll (equalWithin σ n) (σ.items a) (σ.items b)
  | n + 1, .object a, .object b =>
    if a = b then some true
    else
      equalAll (fun x y => if x.1 = y.1 then equalWithin σ n x.2 y.2 else some false)
        (σ.fields a) (σ.fields b)
  | 0, .array a, .array b => if a = b then some true else none
  | 0, .object a, .object b => if a = b then some true else none
  | _, w, w' => some (w.shell.equal w'.shell)

/-- Whether two words are equal; undecided only where cells are nested in a circle. -/
def equal? (σ : Memory) (w w' : Word) : Option Bool :=
  σ.equalWithin σ.size w w'

end Memory

end Script
