import Script.Machine

/-!
# Indexes and properties

Reading a part of a value, and replacing one at the end of a path of indexes and properties.
-/

namespace Script

namespace Number

/-- The integer part, toward zero. An infinite number is its own. -/
def truncate (x : Number) : Number :=
  if x.isNaN || x.isInfinite then x
  else nearest x.isNegative (x.fraction.1 / x.fraction.2) 1

end Number

namespace Value

/-- Whether an index may have a fractional part, which is then cut off. -/
inductive Precision where
  | truncated | integral
  deriving DecidableEq

/-- The position that a value denotes as an index. -/
def position (precision : Precision) : Value → Except Cause Nat
  | .number x =>
    if x.isNaN then .error .indexNaN
    else
      let whole := x.truncate
      if precision = .integral && !whole.equal x then .error (.indexFraction x)
      else if whole.less Number.zero then .error (.indexNegative whole)
      else if whole.isInfinite || Nat.pow 2 53 ≤ whole.fraction.1 / whole.fraction.2 then
        .error (.indexTooLarge whole)
      else .ok (whole.fraction.1 / whole.fraction.2)
  | v => .error (.indexKind v.kind)

/-- The item of an array at an index, and where it is. -/
def item (precision : Precision) (v index : Value) :
    Except Cause (List Value × Nat × Value) :=
  match v with
  | .array items => do
    let i ← index.position precision
    match items[i]? with
    | some item => return (items, i, item)
    | none => .error (.indexBounds i items.length)
  | v => .error (.notIndexable v.kind)

/-- Reads an item; the fractional part of an index does not count. -/
def getItem (v index : Value) : Except Cause Value :=
  return (← v.item .truncated index).2.2

/-- Reads a property. -/
def getProperty (v : Value) (property : Text) : Except Cause Value :=
  match v with
  | .object fields =>
    match Table.get? fields property with
    | some value => .ok value
    | none => .error (.missingProperty property (className fields))
  | v => .error (.unreadable property v.kind)

end Value

/-- One step of a path into a value, with the token it is reported at. -/
inductive Step where
  | index (position : Value) (token : Token)
  | property (name : Text) (token : Token)

def Step.token : Step → Token
  | .index _ t => t
  | .property _ t => t

namespace Value

/-- The properties that a step on the way, or a last step, applies to. Only a last step may meet
a property that is not there yet. -/
def ownFields (v : Value) (property : Text) (last : Bool) : Except Cause (Table Value) :=
  match v with
  | .object fields =>
    if last || Table.contains fields property then .ok fields
    else .error (.missingProperty property (className fields))
  | v => .error (if last then .unsettable property v.kind else .unreadable property v.kind)

/-- Marks a cause with the place of a step. -/
def atStep {α : Type} (step : Step) (result : Except Cause α) : Except Fault α :=
  result.mapError fun cause => ⟨cause, step.token.location⟩

/-- Replaces what a path leads to. Every step but the last must lead to something. -/
def replace (new : Value) : List Step → Value → Except Fault Value
  | [], _ => .ok new
  | .index position token :: rest, v => do
    let (items, i, item) ← atStep (.index position token) (v.item .integral position)
    return .array (items.set i (← replace new rest item))
  | .property name token :: rest, v => do
    let fields ← atStep (.property name token) (v.ownFields name rest.isEmpty)
    let part ← replace new rest ((Table.get? fields name).getD .null)
    return .object (Table.insert name part fields)

end Value

end Script
