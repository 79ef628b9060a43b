import Script.Eval.Access
import Script.Eval.Native
import Script.Syntax.Render
import Script.Value.Compare

/-!
# Evaluating expressions

Operands are evaluated from left to right, and the value of an assignment before its target.
-/

namespace Script

/-- The expression that a chain of indexes and properties starts from. -/
def Expr.root : Expr → Expr
  | .index object _ _ => object.root
  | .member object _ _ => object.root
  | e => e

/-- The variable that an expression is. -/
def Expr.name? : Expr → Option Text
  | .ident name _ => some name
  | _ => none

/-- What an assignment changes: a variable, or the part of a variable that a chain of indexes and
properties leads to. -/
inductive Place where
  | whole (name : Text)
  | inside (name : Text) (token : Token)
  | nowhere (location : Location)

/-- The place that a target denotes; `token` is the one of the assignment. -/
def Expr.place (target : Expr) (token : Token) : Place :=
  match target with
  | .ident name _ => .whole name
  | target =>
    match target.root with
    | .ident name rootToken => .inside name rootToken
    | .hole => .nowhere token.location
    | root => .nowhere root.token.location

namespace BinaryOp

/-- The function on numbers of an arithmetic operator. -/
def arithmetic? : BinaryOp → Option (Number → Number → Number)
  | .add => some Number.add
  | .subtract => some Number.sub
  | .multiply => some Number.mul
  | .divide => some Number.div
  | _ => none

/-- The orders in which a comparison holds. -/
def orders? : BinaryOp → Option (List Ordering)
  | .less => some [.lt]
  | .lessEqual => some [.lt, .eq]
  | .greater => some [.gt]
  | .greaterEqual => some [.gt, .eq]
  | _ => none

end BinaryOp

namespace Env

open Evaluation

variable {M : Type → Type} [Evaluation M]

/-- The value of an arithmetic operator. A string on the left takes the text of the right side,
whatever the operator; otherwise what is no number counts as zero. -/
@[specialize]
def arithmetic (env : Env M) (op : Number → Number → Number) (left right : Value) :
    M Value := do
  match left with
  | .string s => return .string (s ++ (← env.display right))
  | _ => return .number (op left.asNumber right.asNumber)

/-- The value of an operator on two values. Values without an order are in none. -/
@[specialize]
def applyBinary (env : Env M) (op : BinaryOp) (left right : Value) (token : Token) : M Value :=
  match op.arithmetic? with
  | some f => env.arithmetic f left right
  | none =>
    if op = .equal then return .boolean (left.equal right)
    else if op = .notEqual then return .boolean (!left.equal right)
    else
      match left.compare? right with
      | none => return .boolean false
      | some order =>
        match op.orders? with
        | some orders => return .boolean (orders.contains order)
        | none => raise (.unsupportedOperator op) token.location

/-- What is called by a name: a built-in function, or else a declared one. -/
inductive Callee where
  | native (n : Native)
  | declared (f : Function)

/-- Finds what a name calls and checks the count of arguments of a declared function. -/
@[specialize]
def callee (env : Env M) (name : Text) (count : Nat) (token : Token) : M Callee := do
  match Table.get? env.rules.natives name with
  | some n => return .native n
  | none =>
    match ← declared? name with
    | none => raise (.undefinedFunction name) token.location
    | some (.function f) =>
      if count = f.params.length then return .declared f
      else raise (.functionArity f.name f.params.length count) token.location
    | some v => raise (.notFunction name v.kind) token.location

@[specialize]
def enter (env : Env M) (callee : Callee) (args : List Value) (token : Token) : M Value :=
  match callee with
  | .native n => env.applyNative n args token
  | .declared f => env.call f args token

/-- The method of an object, checked for its count of arguments beside the receiver. -/
@[specialize]
def method (receiver : Value) (name : Text) (count : Nat) (token : Token) :
    M Function := do
  match receiver with
  | .object fields =>
    match Table.get? fields name with
    | some (.function f) =>
      if f.params.isEmpty then
        raise (.methodWithoutSelf name) token.location
      else if count + 1 = f.params.length then
        return f
      else
        raise (.methodArity name (f.params.length - 1) count) token.location
    | _ => raise (.missingMethod name (className fields)) token.location
  | v => raise (.noReceiver name v.kind) token.location

/-- The class of a given name, and its constructor checked for its count of arguments beside
the receiver. A class without a constructor takes any arguments and evaluates none. -/
@[specialize]
def template (name : Text) (count : Nat) (token : Token) :
    M (Table Value × Option Function) := do
  match ← declared? name with
  | none => raise (.undefinedClass name) token.location
  | some (.object fields) =>
    match Table.get? fields initKey with
    | some (.function f) =>
      if f.params.isEmpty then
        raise (.constructorWithoutSelf name) token.location
      else if count + 1 = f.params.length then
        return (fields, some f)
      else
        raise (.constructorArity name (f.params.length - 1) count) token.location
    | _ => return (fields, none)
  | some v => raise (.notClass name v.kind) token.location

/-- Initialises a copy of a class; the instance is what the receiver's name holds at the end. -/
@[specialize]
def instantiate (env : Env M) (fields : Table Value) (init : Function) (args : List Value)
    (token : Token) : M Value := do
  let (_, final) ← env.execute init (receiverFrame init (.object fields) args) token
  return (Table.get? final selfName).getD .null

/-- Replaces what a path leads to inside a variable. -/
@[specialize]
def store (name : Text) (token : Token) (steps : List Step) (new : Value) : M Unit := do
  match ← lookup? name with
  | none =>
    match steps with
    | .property property t :: _ => raise (.unsettable property .null) t.location
    | _ => raise (.undefinedVariable name) token.location
  | some old =>
    match Value.replace new steps old with
    | .ok value => assign name value
    | .error f => raise f.cause f.location

mutual

@[specialize]
def evalExpr (env : Env M) : Expr → M Value
  | .hole => return .null
  | .number x _ => return .number x
  | .string s _ => return .string s
  | .boolean b _ => return .boolean b
  | .null _ => return .null
  | .ident name _ => read name
  | .negate operand _ => do
    let v ← resolve (← evalExpr env operand)
    return .number v.asNumber.neg
  | .binary op left right t => do
    let l ← resolve (← evalExpr env left)
    let r ← resolve (← evalExpr env right)
    env.applyBinary op l r t
  | .assign target value t => do
    let new ← evalExpr env value
    match target.place t with
    | .whole name => do
      assign name new
      return new
    | .inside name rootToken => do
      let steps ← evalSteps env target
      store name rootToken steps new
      return new
    | .nowhere location => raise (.invalidTarget target.text) location
  | .call callee args t =>
    match callee.name? with
    | some name => do
      let callee ← env.callee name args.length t
      let values ← evalAll env args
      env.enter callee values t
    | none => raise (.notCallable callee.text) t.location
  | .method object name args t => do
    let receiver ← resolve (← evalExpr env object)
    let f ← method receiver name args.length t
    let values ← evalAll env args
    let (result, _) ← env.execute f (receiverFrame f receiver values) t
    return result
  | .member object property t =>
    match object.name? with
    | some name => do
      ofExcept t.location ((← read name).getProperty property)
    | none => do
      ofExcept t.location ((← evalExpr env object).getProperty property)
  | .index object position t =>
    match object.name? with
    | some name => do
      let i ← resolve (← evalExpr env position)
      ofExcept t.location ((← read name).getItem i)
    | none => do
      let v ← evalExpr env object
      let i ← resolve (← evalExpr env position)
      ofExcept t.location (v.getItem i)
  | .array items _ => return .array (← evalAll env items)
  | .construct name args t => do
    match ← template name args.length t with
    | (fields, none) => return .object fields
    | (fields, some init) => do
      let values ← evalAll env args
      env.instantiate fields init values t

/-- The values of expressions in order. -/
@[specialize]
def evalAll (env : Env M) : List Expr → M (List Value)
  | [] => return []
  | e :: rest => do
    let v ← resolve (← evalExpr env e)
    return v :: (← evalAll env rest)

/-- The steps of a chain of indexes and properties, from its root outward. -/
@[specialize]
def evalSteps (env : Env M) : Expr → M (List Step)
  | .index object position t => do
    let steps ← evalSteps env object
    let i ← resolve (← evalExpr env position)
    return steps ++ [.index i t]
  | .member object property t => do
    let steps ← evalSteps env object
    return steps ++ [.property property t]
  | _ => return []

end

end Env

end Script
