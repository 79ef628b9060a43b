import Script.Session
import Script.Proofs.MapTokens
import Script.Proofs.Spelling
import Script.Proofs.Table

/-!
# Trees, values and machines without places

What is left of a tree, a value or a machine when the places of its tokens are forgotten. Two
layouts of one program have this in common. Nothing that decides how an evaluation goes on can
tell the difference: the functions that look into trees and values commute with forgetting.
-/

namespace Script

/-! ## Trees -/

abbrev Expr.unplaced (e : Expr) : Expr :=
  e.mapTokens Token.unplaced

abbrev Expr.unplacedAll (es : List Expr) : List Expr :=
  Expr.mapTokensAll Token.unplaced es

abbrev Stmt.unplaced (s : Stmt) : Stmt :=
  s.mapTokens Token.unplaced

abbrev Stmt.unplacedAll (stmts : List Stmt) : List Stmt :=
  Stmt.mapTokensAll Token.unplaced stmts

def Program.unplaced (p : Program) : Program :=
  ⟨p.token.unplaced, Stmt.unplacedAll p.body⟩

namespace Expr

theorem length_mapTokensAll (f : Token → Token) (es : List Expr) :
    (mapTokensAll f es).length = es.length := by
  induction es with
  | nil => rfl
  | cons e rest ih => rw [mapTokensAll, List.length_cons, ih, List.length_cons]

theorem isHole_unplaced (e : Expr) : e.unplaced.isHole = e.isHole := by
  cases e <;> rfl

theorem name?_unplaced (e : Expr) : e.unplaced.name? = e.name? := by
  cases e <;> rfl

theorem root_unplaced (e : Expr) : e.unplaced.root = e.root.unplaced := by
  match e with
  | .index object _ _ => exact object.root_unplaced
  | .member object _ _ => exact object.root_unplaced
  | .hole | .number .. | .string .. | .boolean .. | .null .. | .ident .. | .negate .. | .binary ..
  | .assign .. | .call .. | .method .. | .array .. | .construct .. => rfl

mutual

/-- A message that quotes an expression shows no place. -/
theorem text_unplaced (e : Expr) : e.unplaced.text = e.text := by
  match e with
  | .hole | .number .. | .string .. | .boolean .. | .null .. | .ident .. => rfl
  | .negate operand t => simp only [mapTokens, text, operand.text_unplaced]
  | .binary op left right t =>
    simp only [mapTokens, text, left.text_unplaced, right.text_unplaced]
  | .assign target value t =>
    simp only [mapTokens, text, target.text_unplaced, value.text_unplaced]
  | .call callee args t => simp only [mapTokens, text, callee.text_unplaced, texts_unplaced args]
  | .method object name args t =>
    simp only [mapTokens, text, object.text_unplaced, texts_unplaced args]
  | .member object property t => simp only [mapTokens, text, object.text_unplaced]
  | .index object position t =>
    simp only [mapTokens, text, object.text_unplaced, position.text_unplaced]
  | .array items t => simp only [mapTokens, text, texts_unplaced items]
  | .construct className args t => simp only [mapTokens, text, texts_unplaced args]

theorem texts_unplaced (es : List Expr) : texts (unplacedAll es) = texts es := by
  match es with
  | [] => rfl
  | e :: rest => simp only [mapTokensAll, texts, e.text_unplaced, texts_unplaced rest]

end

end Expr

def Place.unplaced : Place → Place
  | .whole name => .whole name
  | .inside name token => .inside name token.unplaced
  | .nowhere _ => .nowhere {}

theorem Expr.place_unplaced (target : Expr) (t : Token) :
    target.unplaced.place t.unplaced = (target.place t).unplaced := by
  have hroot := target.root_unplaced
  cases target with
  | index object position token =>
    simp only [mapTokens, place, root] at hroot ⊢
    rw [hroot]
    cases object.root <;> rfl
  | member object property token =>
    simp only [mapTokens, place, root] at hroot ⊢
    rw [hroot]
    cases object.root <;> rfl
  | _ => rfl

/-! ## Tables -/

namespace Table

variable {α β : Type}

/-- The table with each entry changed by a function. -/
def mapValues (f : α → β) (t : Table α) : Table β :=
  t.map fun entry => (entry.1, f entry.2)

theorem get?_mapValues (f : α → β) (t : Table α) (name : Text) :
    get? (mapValues f t) name = (get? t name).map f := by
  induction t with
  | nil => rfl
  | cons entry rest ih =>
    by_cases hkey : entry.1 = name
    · simp [mapValues, get?, hkey]
    · simpa [mapValues, get?, hkey] using ih

theorem contains_mapValues (f : α → β) (t : Table α) (name : Text) :
    contains (mapValues f t) name = contains t name := by
  rw [contains, contains, get?_mapValues, Option.isSome_map]

theorem insert_mapValues (f : α → β) (name : Text) (v : α) (t : Table α) :
    insert name (f v) (mapValues f t) = mapValues f (insert name v t) := by
  induction t with
  | nil => rfl
  | cons entry rest ih =>
    obtain ⟨key, old⟩ := entry
    simp only [mapValues, List.map_cons, insert] at ih ⊢
    cases Text.compare name key with
    | lt => rfl
    | eq => rfl
    | gt => rw [ih, List.map_cons]

end Table

/-! ## Values -/

def Body.unplaced (b : Body) : Body :=
  { b with stmts := Stmt.unplacedAll b.stmts }

def Function.unplaced (f : Function) : Function :=
  { f with body := f.body.map Body.unplaced, token := f.token.unplaced }

theorem Function.stmts_unplaced (f : Function) : f.unplaced.stmts = Stmt.unplacedAll f.stmts := by
  obtain ⟨name, params, body, token⟩ := f
  cases body <;> rfl

theorem Function.equal_unplaced (f g : Function) : f.unplaced.equal g.unplaced = f.equal g := by
  have hid (b : Option Body) : (b.map Body.unplaced).map Body.id = b.map Body.id := by
    cases b <;> rfl
  simp only [Function.equal, Function.unplaced, hid]

namespace Value

mutual

def unplaced : Value → Value
  | .null => .null
  | .number x => .number x
  | .string s => .string s
  | .boolean b => .boolean b
  | .array items => .array (unplacedItems items)
  | .nameRef name => .nameRef name
  | .function f => .function f.unplaced
  | .object fields => .object (unplacedFields fields)

def unplacedItems : List Value → List Value
  | [] => []
  | v :: rest => v.unplaced :: unplacedItems rest

def unplacedFields : List (Text × Value) → List (Text × Value)
  | [] => []
  | (key, v) :: rest => (key, v.unplaced) :: unplacedFields rest

end

theorem unplacedItems_eq (items : List Value) : unplacedItems items = items.map unplaced := by
  induction items with
  | nil => rfl
  | cons v rest ih => rw [unplacedItems, ih, List.map_cons]

theorem unplacedFields_eq (fields : Table Value) :
    unplacedFields fields = Table.mapValues unplaced fields := by
  induction fields with
  | nil => rfl
  | cons entry rest ih => rw [unplacedFields, ih, Table.mapValues, Table.mapValues, List.map_cons]

theorem unplaced_array (items : List Value) :
    (Value.array items).unplaced = .array (items.map unplaced) := by
  rw [unplaced, unplacedItems_eq]

theorem unplaced_object (fields : Table Value) :
    (Value.object fields).unplaced = .object (Table.mapValues unplaced fields) := by
  rw [unplaced, unplacedFields_eq]

theorem kind_unplaced (v : Value) : v.unplaced.kind = v.kind := by
  cases v <;> rfl

theorem isTrue_unplaced (v : Value) : v.unplaced.isTrue = v.isTrue := by
  cases v <;> rfl

theorem asNumber_unplaced (v : Value) : v.unplaced.asNumber = v.asNumber := by
  cases v <;> rfl

theorem getD_unplaced (v : Option Value) : (v.map unplaced).getD .null = (v.getD .null).unplaced := by
  cases v <;> rfl

end Value

theorem className_unplaced (fields : Table Value) :
    className (Table.mapValues Value.unplaced fields) = className fields := by
  simp only [className, Table.get?_mapValues]
  cases Table.get? fields nameKey with
  | none => rfl
  | some v => cases v <;> rfl

/-! ### Equality and order -/

namespace Value

mutual

theorem equal_unplaced (v w : Value) : v.unplaced.equal w.unplaced = v.equal w := by
  match v with
  | .null | .number _ | .string _ | .boolean _ | .nameRef _ => cases w <;> rfl
  | .array items =>
    cases w with
    | array others => exact equalItems_unplaced items others
    | _ => rfl
  | .function f =>
    cases w with
    | function g => exact f.equal_unplaced g
    | _ => rfl
  | .object fields =>
    cases w with
    | object others => exact equalFields_unplaced fields others
    | _ => rfl

theorem equalItems_unplaced (vs ws : List Value) :
    equalItems (unplacedItems vs) (unplacedItems ws) = equalItems vs ws := by
  match vs with
  | [] => cases ws <;> rfl
  | v :: vs =>
    cases ws with
    | nil => rfl
    | cons w ws =>
      simp only [unplacedItems, equalItems, equal_unplaced v w, equalItems_unplaced vs ws]

theorem equalFields_unplaced (vs ws : List (Text × Value)) :
    equalFields (unplacedFields vs) (unplacedFields ws) = equalFields vs ws := by
  match vs with
  | [] => cases ws <;> rfl
  | (key, v) :: vs =>
    cases ws with
    | nil => rfl
    | cons entry ws =>
      simp only [unplacedFields, equalFields, equal_unplaced v entry.2, equalFields_unplaced vs ws]

end

mutual

theorem compare_unplaced (v w : Value) : v.unplaced.compare? w.unplaced = v.compare? w := by
  match v with
  | .null | .number _ | .string _ | .boolean _ | .nameRef _ | .function _ => cases w <;> rfl
  | .array items =>
    cases w with
    | array others => exact compareItems_unplaced items others
    | _ => rfl
  | .object fields =>
    cases w with
    | object others =>
      simp only [unplaced_object, compare?, Table.mapValues, List.length_map]
    | _ => rfl

theorem compareItems_unplaced (vs ws : List Value) :
    compareItems? (unplacedItems vs) (unplacedItems ws) = compareItems? vs ws := by
  match vs with
  | [] => cases ws <;> rfl
  | v :: vs =>
    cases ws with
    | nil => rfl
    | cons w ws =>
      simp only [unplacedItems, compareItems?, compare_unplaced v w, compareItems_unplaced vs ws]

end

/-! ### Parts of values -/

theorem position_unplaced (precision : Precision) (v : Value) :
    v.unplaced.position precision = v.position precision := by
  cases v <;> rfl

theorem item_unplaced (precision : Precision) (v index : Value) :
    v.unplaced.item precision index.unplaced =
      (v.item precision index).map fun r => (r.1.map unplaced, r.2.1, r.2.2.unplaced) := by
  cases v with
  | array items =>
    simp only [unplaced_array, item, position_unplaced]
    cases index.position precision with
    | error cause => rfl
    | ok i =>
      simp only [bind, Except.bind, List.getElem?_map, List.length_map]
      cases items[i]? <;> rfl
  | _ => rfl

theorem getItem_unplaced (v index : Value) :
    v.unplaced.getItem index.unplaced = (v.getItem index).map unplaced := by
  simp only [getItem, item_unplaced]
  cases v.item .truncated index <;> rfl

theorem getProperty_unplaced (v : Value) (property : Text) :
    v.unplaced.getProperty property = (v.getProperty property).map unplaced := by
  cases v with
  | object fields =>
    simp only [unplaced_object, getProperty, Table.get?_mapValues, className_unplaced]
    cases Table.get? fields property <;> rfl
  | _ => rfl

theorem ownFields_unplaced (v : Value) (property : Text) (last : Bool) :
    v.unplaced.ownFields property last =
      (v.ownFields property last).map (Table.mapValues unplaced) := by
  cases v with
  | object fields =>
    simp only [unplaced_object, ownFields, Table.contains_mapValues, className_unplaced]
    split <;> rfl
  | _ => rfl

end Value

def Step.unplaced : Step → Step
  | .index position token => .index position.unplaced token.unplaced
  | .property name token => .property name token.unplaced

/-- The cause of a fault, which is all that is left of it. -/
def Fault.unplaced (f : Fault) : Fault :=
  ⟨f.cause, {}⟩

/-- Replacing a part fails at the same step for the same reason, or has the same result. -/
theorem Value.replace_unplaced (new : Value) (steps : List Step) (v : Value) :
    Value.replace new.unplaced (steps.map Step.unplaced) v.unplaced =
      ((Value.replace new steps v).map Value.unplaced).mapError Fault.unplaced := by
  induction steps generalizing v with
  | nil => rfl
  | cons step rest ih =>
    cases step with
    | index position token =>
      simp only [List.map_cons, Step.unplaced, Value.replace, Value.item_unplaced]
      cases v.item .integral position with
      | error cause => rfl
      | ok r =>
        obtain ⟨items, i, item⟩ := r
        simp only [Except.map, Value.atStep, Except.mapError, bind, Except.bind, ih]
        cases Value.replace new rest item with
        | error f => rfl
        | ok part =>
          simp only [pure, Except.pure, Value.unplaced_array, List.map_set]
    | property name token =>
      have hlast : (rest.map Step.unplaced).isEmpty = rest.isEmpty := by cases rest <;> rfl
      simp only [List.map_cons, Step.unplaced, Value.replace, hlast, Value.ownFields_unplaced]
      cases v.ownFields name rest.isEmpty with
      | error cause => rfl
      | ok fields =>
        simp only [Except.map, Value.atStep, Except.mapError, bind, Except.bind,
          Table.get?_mapValues, Value.getD_unplaced, ih]
        cases Value.replace new rest ((Table.get? fields name).getD .null) with
        | error f => rfl
        | ok part =>
          simp only [pure, Except.pure, Value.unplaced_object, Table.insert_mapValues]

/-! ## Machines -/

abbrev Frame.unplaced (frame : Frame) : Frame :=
  Table.mapValues Value.unplaced frame

theorem Frame.bind_unplaced (frame : Frame) (params : List Text) (args : List Value) :
    Frame.bind (Frame.unplaced frame) params (args.map Value.unplaced) =
      Frame.unplaced (Frame.bind frame params args) := by
  induction params generalizing frame args with
  | nil => rfl
  | cons name params ih =>
    cases args with
    | nil => rfl
    | cons v args =>
      have hlater := ih (Table.insert name v frame) args
      rw [Frame.unplaced, ← Table.insert_mapValues] at hlater
      exact hlater

theorem Env.receiverFrame_unplaced (f : Function) (receiver : Value) (args : List Value) :
    Env.receiverFrame f.unplaced receiver.unplaced (args.map Value.unplaced) =
      Frame.unplaced (Env.receiverFrame f receiver args) :=
  Frame.bind_unplaced [(selfName, receiver)] f.params.tail args

def Machine.unplaced (m : Machine) : Machine :=
  { m with frame := Frame.unplaced m.frame, heap := Table.mapValues Value.unplaced m.heap }

/-- The end of an evaluation, with the result changed by `f`: of a fault only its cause is left. -/
def Outcome.unplaced {α β : Type} (f : α → β) : Outcome α → Outcome β
  | .done a m => .done (f a) m.unplaced
  | .fault e m => .fault e.unplaced m.unplaced
  | .exhausted => .exhausted

/-- A built-in function of a host may hold a value of its own. -/
def Native.unplaced : Native → Native
  | .constant v => .constant v.unplaced
  | native => native

def Rules.unplaced (rules : Rules) : Rules :=
  { rules with natives := Table.mapValues Native.unplaced rules.natives }

def Session.unplaced (s : Session) : Session :=
  ⟨s.rules.unplaced, s.machine.unplaced⟩

end Script
