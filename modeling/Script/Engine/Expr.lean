import Script.Engine.Call
import Script.Eval.Expr

/-!
# Evaluating expressions on the memory

Every expression is evaluated at the level of a frame. What it evaluates to is new: a variable is
read by copying it, and an assignment stores a copy of its value.
-/

namespace Script.Engine

open Exec

/-- The value of an arithmetic operator. A string on the left takes the text of the right side,
whatever the operator; otherwise what is no number counts as zero. -/
def arithmetic (g : Engine) (op : Number → Number → Number) (left right : Word) :
    Exec Word := do
  match left with
  | .string s => return .string (s ++ (← g.display right))
  | _ => return .number (op left.shell.asNumber right.shell.asNumber)

/-- Whether two words are equal. -/
def equal (left right : Word) : Exec Bool :=
  fun c => match c.memory.equal? left right with
    | some b => (.done b, c)
    | none => (.exhausted, c)

/-- The value of an operator on two words. Values without an order are in none. -/
def applyBinary (g : Engine) (op : BinaryOp) (left right : Word) (token : Token) :
    Exec Word :=
  match op.arithmetic? with
  | some f => g.arithmetic f left right
  | none => do
    if op = .equal then return .boolean (← equal left right)
    else if op = .notEqual then return .boolean (!(← equal left right))
    else
      match (← view left).compare? (← view right) with
      | none => return .boolean false
      | some order =>
        match op.orders? with
        | some orders => return .boolean (orders.contains order)
        | none => raise (.unsupportedOperator op) token.location

/-- Finds what a name calls and checks the count of arguments of a declared function. -/
def callee (g : Engine) (name : Text) (count : Nat) (token : Token) : Exec Env.Callee := do
  match Table.get? g.rules.natives name with
  | some n => return .native n
  | none =>
    match ← declared? name with
    | none => raise (.undefinedFunction name) token.location
    | some (.function f) =>
      if count = f.params.length then return .declared f
      else raise (.functionArity f.name f.params.length count) token.location
    | some w => raise (.notFunction name w.kind) token.location

def enter (g : Engine) (callee : Env.Callee) (args : List Word) (token : Token) : Exec Word :=
  match callee with
  | .native n => g.applyNative n args token
  | .declared f => g.call f args token

/-- The method of an object, checked for its count of arguments beside the receiver. -/
def method (receiver : Word) (name : Text) (count : Nat) (token : Token) : Exec Function := do
  match receiver with
  | .object a =>
    let entries ← fields a
    match Table.get? entries name with
    | some (.function f) =>
      if f.params.isEmpty then
        raise (.methodWithoutSelf name) token.location
      else if count + 1 = f.params.length then
        return f
      else
        raise (.methodArity name (f.params.length - 1) count) token.location
    | _ => raise (.missingMethod name (Word.className entries)) token.location
  | w => raise (.noReceiver name w.kind) token.location

/-- The class of a given name, and its constructor checked for its count of arguments beside
the receiver. A class without a constructor takes any arguments and evaluates none. -/
def template (name : Text) (count : Nat) (token : Token) : Exec (Word × Option Function) := do
  match ← declared? name with
  | none => raise (.undefinedClass name) token.location
  | some (.object a) =>
    match Table.get? (← fields a) initKey with
    | some (.function f) =>
      if f.params.isEmpty then
        raise (.constructorWithoutSelf name) token.location
      else if count + 1 = f.params.length then
        return (.object a, some f)
      else
        raise (.constructorArity name (f.params.length - 1) count) token.location
    | _ => return (.object a, none)
  | some w => raise (.notClass name w.kind) token.location

/-- The word that a variable holds where it is read in place; null if it holds nothing. -/
def held (level : Nat) (name : Text) : Exec Word := do
  return (← lookup? level name).getD .null

mutual

def evalExpr (g : Engine) (level : Nat) : Expr → Exec Word
  | .hole => return .null
  | .number x _ => return .number x
  | .string s _ => return .string s
  | .boolean b _ => return .boolean b
  | .null _ => return .null
  | .ident name _ => read level name
  | .negate operand _ => do
    let w ← resolve level (← evalExpr g level operand)
    return .number w.shell.asNumber.neg
  | .binary op left right t => do
    let l ← resolve level (← evalExpr g level left)
    let r ← resolve level (← evalExpr g level right)
    g.applyBinary op l r t
  | .assign target value t => do
    let new ← evalExpr g level value
    match target.place t with
    | .whole name => do
      assign level name (← copy new)
      return new
    | .inside name rootToken => do
      let steps ← evalSteps g level target
      store level name rootToken steps new
      return new
    | .nowhere location => raise (.invalidTarget target.text) location
  | .call callee args t =>
    match callee.name? with
    | some name => do
      let callee ← g.callee name args.length t
      let words ← evalAll g level args
      g.enter callee words t
    | none => raise (.notCallable callee.text) t.location
  | .method object name args t => do
    let receiver ← resolve level (← evalExpr g level object)
    let f ← method receiver name args.length t
    let words ← evalAll g level args
    g.callMethod f receiver words t
  | .member object key t =>
    match object.name? with
    | some name => do
      property (← held level name) key t
    | none => do
      property (← evalExpr g level object) key t
  | .index object position t =>
    match object.name? with
    | some name => do
      let i ← resolve level (← evalExpr g level position)
      item (← held level name) i t
    | none => do
      let w ← evalExpr g level object
      let i ← resolve level (← evalExpr g level position)
      item w i t
  | .array items _ => do
    return .array (← alloc (.items (← evalAll g level items)))
  | .construct name args t => do
    match ← template name args.length t with
    | (w, none) => copy w
    | (w, some init) => do
      let words ← evalAll g level args
      g.instantiate w init words t

/-- The words of expressions in order. -/
def evalAll (g : Engine) (level : Nat) : List Expr → Exec (List Word)
  | [] => return []
  | e :: rest => do
    let w ← resolve level (← evalExpr g level e)
    return w :: (← evalAll g level rest)

/-- The steps of a chain of indexes and properties, from its root outward. Of an index only its
kind and its number count. -/
def evalSteps (g : Engine) (level : Nat) : Expr → Exec (List Step)
  | .index object position t => do
    let steps ← evalSteps g level object
    let i ← resolve level (← evalExpr g level position)
    return steps ++ [.index i.shell t]
  | .member object key t => do
    let steps ← evalSteps g level object
    return steps ++ [.property key t]
  | _ => return []

end

end Script.Engine
