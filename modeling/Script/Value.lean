import Script.Syntax
import Script.Table

/-!
# Values

What expressions evaluate to. Arrays and objects are plain values: a copy shares nothing with
what it was copied from.
-/

namespace Script

/-- What makes a function body the same body: the declaration that was executed, or the mark
under which a host handed it in. -/
inductive BodyId where
  | declared (serial : Nat)
  | supplied (mark : Int)
  deriving DecidableEq

/-- A function body with the head it was declared under. -/
structure Body where
  id : BodyId
  name : Text
  params : List Text
  stmts : List Stmt

/-- A function knows its parameters and its body, but no variables of the place where it was
declared. Without a body it does nothing. -/
structure Function where
  name : Text
  params : List Text
  body : Option Body
  token : Token

/-- The statements that a call executes. -/
def Function.stmts (f : Function) : List Stmt :=
  match f.body with
  | some body => body.stmts
  | none => []

inductive Value where
  | null
  | number (x : Number)
  | string (s : Text)
  | boolean (b : Bool)
  | array (items : List Value)
  | nameRef (name : Text)
  | function (f : Function)
  | object (fields : List (Text × Value))
  deriving Inhabited

/-- The type of a value. -/
inductive Value.Kind where
  | null | number | string | boolean | array | nameRef | function | object
  deriving DecidableEq

/-- The name of a type, as programs see it. -/
def Value.Kind.name : Value.Kind → String
  | .null => "null"
  | .number => "number"
  | .string => "string"
  | .boolean => "boolean"
  | .array => "array"
  | .nameRef => "nameref"
  | .function => "function"
  | .object => "object"

/-- The place of a type in the order of values of different types. -/
def Value.Kind.rank : Value.Kind → Nat
  | .null => 0
  | .number => 1
  | .string => 2
  | .boolean => 3
  | .array => 4
  | .nameRef => 5
  | .function => 6
  | .object => 7

namespace Value

def kind : Value → Kind
  | .null => .null
  | .number _ => .number
  | .string _ => .string
  | .boolean _ => .boolean
  | .array _ => .array
  | .nameRef _ => .nameRef
  | .function _ => .function
  | .object _ => .object

/-- Only the boolean `true` makes a condition hold. -/
def isTrue : Value → Bool
  | .boolean b => b
  | _ => false

/-- What counts in arithmetic: anything but a number counts as zero. -/
def asNumber : Value → Number
  | .number x => x
  | _ => Number.zero

mutual

/-- The same value, with every array and object in it built anew. -/
def clone : Value → Value
  | .array items => .array (cloneItems items)
  | .object fields => .object (cloneFields fields)
  | v => v

def cloneItems : List Value → List Value
  | [] => []
  | v :: rest => v.clone :: cloneItems rest

def cloneFields : List (Text × Value) → List (Text × Value)
  | [] => []
  | (key, v) :: rest => (key, v.clone) :: cloneFields rest

end

end Value

/-! ## Classes

A class is an object that carries its own name beside its methods; an instance is a copy. -/

/-- The property that holds the name of a class. -/
def nameKey : Text := "~name"

/-- The method that initialises an instance. -/
def initKey : Text := "~init"

/-- The method that gives an object its text. -/
def displayKey : Text := "~display"

/-- The variable that holds the receiver of a method. -/
def selfName : Text := "self"

/-- The class name that an object carries; empty if there is none. -/
def className (fields : Table Value) : Text :=
  match Table.get? fields nameKey with
  | some (.string name) => name
  | _ => []

/-- Whether a value is an object that carries a class name of any type. -/
def Value.isTemplate : Value → Bool
  | .object fields => Table.contains fields nameKey
  | _ => false

end Script
