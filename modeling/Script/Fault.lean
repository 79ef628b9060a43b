import Script.Value
import Script.Number.Decimal

/-!
# Run-time faults

Why an evaluation stops. A cause names the reason and carries what its message tells; a fault
adds the place.
-/

namespace Script

inductive Cause where
  | undefinedVariable (name : Text)
  | undefinedFunction (name : Text)
  | undefinedClass (name : Text)
  | undefinedMain
  | notFunction (name : Text) (kind : Value.Kind)
  | notClass (name : Text) (kind : Value.Kind)
  | missingFunction
  | unsettable (property : Text) (kind : Value.Kind)
  | unreadable (property : Text) (kind : Value.Kind)
  | noReceiver (method : Text) (kind : Value.Kind)
  | lenArgument (kind : Value.Kind)
  | pushArgument (kind : Value.Kind)
  | unsupportedOperator (op : BinaryOp)
  | functionArity (name : Text) (expected got : Nat)
  | constructorWithoutSelf (className : Text)
  | constructorArity (className : Text) (expected got : Nat)
  | methodWithoutSelf (method : Text)
  | methodArity (method : Text) (expected got : Nat)
  | nativeArity (name : Text) (expected got : Nat)
  | mainArity (declared : Nat)
  | indexKind (kind : Value.Kind)
  | indexNaN
  | indexFraction (x : Number)
  | indexNegative (x : Number)
  | indexTooLarge (x : Number)
  | indexBounds (position length : Nat)
  | notIndexable (kind : Value.Kind)
  | missingProperty (property owner : Text)
  | missingMethod (method owner : Text)
  | invalidTarget (target : Text)
  | notCallable (callee : Text)
  | classMember (className : Text)
  | depthExceeded (limit : Nat) (function : Text)
  deriving DecidableEq

namespace Cause

/-- The name of the class of faults that a cause belongs to. -/
def category : Cause → String
  | .undefinedVariable _ | .undefinedFunction _ | .undefinedClass _ | .undefinedMain =>
    "UndefinedError"
  | .notFunction .. | .notClass .. | .missingFunction | .unsettable .. | .unreadable ..
  | .noReceiver .. | .lenArgument _ | .pushArgument _ | .unsupportedOperator _ => "TypeError"
  | .functionArity .. | .constructorWithoutSelf _ | .constructorArity ..
  | .methodWithoutSelf _ | .methodArity .. | .nativeArity .. | .mainArity _ => "ArityError"
  | .indexKind _ | .indexNaN | .indexFraction _ | .indexNegative _ | .indexTooLarge _
  | .indexBounds .. | .notIndexable _ => "IndexError"
  | .missingProperty .. => "PropertyError"
  | .missingMethod .. => "MethodError"
  | .invalidTarget _ | .notCallable _ | .classMember _ => "UnexpectedNodeError"
  | .depthExceeded .. => "StackOverflowError"

/-- The words for a type in a message. -/
def kindText (kind : Value.Kind) : Text :=
  Text.ofString kind.name

/-- The words for an object whose class name is `owner`. -/
def ownerText (owner : Text) : Text :=
  if owner.isEmpty then "object" else "instance of '" ++ owner ++ "'"

/-- The words for a wrong count of arguments. -/
def countText (expected got : Nat) : Text :=
  " expects " ++ Text.ofNat expected ++ " argument(s) but got " ++ Text.ofNat got

/-- The message of a cause. -/
def message : Cause → Text
  | .undefinedVariable name => "Variable '" ++ name ++ "' is not defined"
  | .undefinedFunction name => "Function '" ++ name ++ "' is not defined"
  | .undefinedClass name => "Class '" ++ name ++ "' is not defined"
  | .undefinedMain => "No 'main' function is defined"
  | .notFunction name kind => "'" ++ name ++ "' is a " ++ kindText kind ++ ", not a function"
  | .notClass name kind => "'" ++ name ++ "' is a " ++ kindText kind ++ ", not a class"
  | .missingFunction => "Attempted to call a null function"
  | .unsettable property kind =>
    "Cannot set property '" ++ property ++ "' of a " ++ kindText kind
  | .unreadable property kind =>
    "Cannot read property '" ++ property ++ "' of a " ++ kindText kind
  | .noReceiver method kind => "Cannot call method '" ++ method ++ "' on a " ++ kindText kind
  | .lenArgument kind => "len() expects an array or a string, got a " ++ kindText kind
  | .pushArgument kind =>
    "push() expects an array as its first argument, got a " ++ kindText kind
  | .unsupportedOperator op => "Unsupported operator '" ++ Text.ofString op.symbol ++ "'"
  | .functionArity name expected got => "Function '" ++ name ++ "'" ++ countText expected got
  | .constructorWithoutSelf className =>
    "Constructor of '" ++ className ++ "' declares no receiver parameter"
  | .constructorArity className expected got =>
    "Constructor of '" ++ className ++ "'" ++ countText expected got
  | .methodWithoutSelf method => "Method '" ++ method ++ "' declares no receiver parameter"
  | .methodArity method expected got => "Method '" ++ method ++ "'" ++ countText expected got
  | .nativeArity name expected got => "Built-in '" ++ name ++ "'" ++ countText expected got
  | .mainArity declared =>
    "'main' must take exactly 1 parameter (the program arguments) but declares "
      ++ Text.ofNat declared
  | .indexKind kind => "Array index must be a number, got a " ++ kindText kind
  | .indexNaN => "Array index must be a number, got NaN"
  | .indexFraction x => "Array index must be an integer, got " ++ x.text
  | .indexNegative x => "Array index must not be negative, got " ++ x.text
  | .indexTooLarge x => "Array index " ++ x.text ++ " is out of range"
  | .indexBounds position length =>
    "Index " ++ Text.ofNat position ++ " out of bounds for array of length " ++ Text.ofNat length
  | .notIndexable kind => "Cannot index a " ++ kindText kind
  | .missingProperty property owner =>
    "Property '" ++ property ++ "' does not exist on " ++ ownerText owner
  | .missingMethod method owner => "'" ++ method ++ "' is not a method of " ++ ownerText owner
  | .invalidTarget target => "Invalid assignment target '" ++ target ++ "'"
  | .notCallable callee => "Only named functions can be called, got '" ++ callee ++ "'"
  | .classMember className => "Class '" ++ className ++ "' may only contain method definitions"
  | .depthExceeded limit function =>
    "Maximum call depth of " ++ Text.ofNat limit ++ " exceeded while calling '" ++ function ++ "'"

end Cause

/-- A cause and the place it is about. -/
structure Fault where
  cause : Cause
  location : Location
  deriving DecidableEq

/-- The full report: class, place, message and the quoted line. -/
def Fault.report (f : Fault) : Text :=
  Text.ofString f.cause.category ++ " at " ++ f.location.text ++ "\n" ++ f.cause.message
    ++ "\n --> Traced at:\n" ++ f.location.trace

end Script
