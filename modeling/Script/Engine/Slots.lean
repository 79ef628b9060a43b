import Script.Eval.Access
import Script.Runtime

/-!
# Parts of arrays and objects in the memory

A part is read by copying it. It is set where it is: the steps of a path lead from slot to slot, and
the last slot gets a copy of the new value.
-/

namespace Script.Exec

/-- A copy of an item; the fractional part of an index does not count. -/
def item (w index : Word) (token : Token) : Exec Word := do
  match w with
  | .array a =>
    match index.shell.position .truncated with
    | .error cause => raise cause token.location
    | .ok i =>
      let words ← items a
      match words[i]? with
      | some part => copy part
      | none => raise (.indexBounds i words.length) token.location
  | w => raise (.notIndexable w.kind) token.location

/-- A copy of a property. -/
def property (w : Word) (name : Text) (token : Token) : Exec Word := do
  match w with
  | .object a =>
    let entries ← fields a
    match Table.get? entries name with
    | some part => copy part
    | none => raise (.missingProperty name (Word.className entries)) token.location
  | w => raise (.unreadable name w.kind) token.location

/-- The slot that a step leads to. Only a last step may meet a property that is not there yet, which
is then made. -/
def slotInside (w : Word) (last : Bool) (step : Step) : Exec Slot := do
  match step with
  | .index position token =>
    match w with
    | .array a =>
      match position.position .integral with
      | .error cause => raise cause token.location
      | .ok i =>
        let words ← items a
        if i < words.length then return .item a i
        else raise (.indexBounds i words.length) token.location
    | w => raise (.notIndexable w.kind) token.location
  | .property name token =>
    match w with
    | .object a =>
      let entries ← fields a
      if Table.contains entries name then return .field a name
      else if last then
        change (.write (.field a name) .null)
        return .field a name
      else raise (.missingProperty name (Word.className entries)) token.location
    | w =>
      raise (if last then .unsettable name w.kind else .unreadable name w.kind) token.location

/-- The slot that steps lead to from another one. -/
def slotAfter (slot : Slot) : List Step → Exec Slot
  | [] => return slot
  | step :: rest => do
    let next ← slotInside (← load slot) rest.isEmpty step
    slotAfter next rest

/-- Sets what a path leads to inside a variable to a copy of a word. -/
def store (level : Nat) (name : Text) (token : Token) (steps : List Step) (w : Word) :
    Exec Unit := do
  match ← lookup? level name with
  | none =>
    match steps with
    | .property property t :: _ => raise (.unsettable property .null) t.location
    | _ => raise (.undefinedVariable name) token.location
  | some _ =>
    let slot ← slotAfter (.var level name) steps
    change (.write slot (← copy w))

end Script.Exec
