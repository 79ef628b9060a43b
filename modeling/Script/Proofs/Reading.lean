import Script.Proofs.Frame
import Script.Proofs.Positions
import Script.Proofs.Sequence
import Script.Session

/-!
# Reading parts of variables

An item of a variable is read after its index has been evaluated, an item of any other expression
from the value that the expression had before. The two differ only where evaluating the index
changes the variable.
-/

namespace Script

/-- What a variable reads as. -/
def Machine.valueOf (m : Machine) (x : Text) : Value :=
  (Table.get? m.frame x).getD .null

theorem Eval.read_eq_done (m : Machine) (x : Text) :
    (Evaluation.read x : Eval Value) m = .done (m.valueOf x) m :=
  rfl

/-- Checked values with the same place give the same outcome only if they are the same. -/
theorem Eval.ofExcept_inj {α : Type} {location : Location} {r r' : Except Cause α} {m : Machine} :
    (Evaluation.ofExcept location r : Eval α) m = (Evaluation.ofExcept location r' : Eval α) m ↔
      r = r' := by
  constructor
  · intro h
    cases r <;> cases r' <;> cases h <;> rfl
  · rintro rfl
    rfl

theorem Value.getItem_zero (v : Value) (rest : List Value) :
    (Value.array (v :: rest)).getItem (.number .zero) = .ok v := by
  have hzero : (Value.number .zero).IsPosition 0 := ⟨.zero, rfl, by decide +kernel, by decide⟩
  rw [Value.getItem, Value.item, Value.position_of_isPosition hzero]
  rfl

namespace Env

open Evaluation (read resolve)

variable (env : Env)

/-- The value of an index. -/
def evalPosition (position : Expr) : Eval Value := do
  resolve (← env.evalExpr position)

/-- An item of the value that an expression has before the index is evaluated. -/
def itemOfCopy (object position : Expr) (t : Token) : Eval Value := do
  let v ← env.evalExpr object
  let i ← env.evalPosition position
  Evaluation.ofExcept t.location (v.getItem i)

/-- A property of the value of an expression. -/
def propertyOfCopy (object : Expr) (property : Text) (t : Token) : Eval Value := do
  let v ← env.evalExpr object
  Evaluation.ofExcept t.location (v.getProperty property)

/-- All expressions but variables are evaluated before the index. -/
theorem evalExpr_index_of_name? {object : Expr} (h : object.name? = none) (position : Expr)
    (t : Token) :
    env.evalExpr (.index object position t) = env.itemOfCopy object position t := by
  rw [evalExpr, h]
  simp only [itemOfCopy, evalPosition, bind_assoc]

/-- A variable is read after the index. -/
theorem evalExpr_index_ident (x : Text) (token : Token) (position : Expr) (t : Token) :
    env.evalExpr (.index (.ident x token) position t) = (do
      let i ← env.evalPosition position
      let v ← read x
      Evaluation.ofExcept t.location (v.getItem i)) := by
  rw [evalExpr]
  simp only [Expr.name?, evalPosition, bind_assoc]

theorem evalExpr_member (object : Expr) (property : Text) (t : Token) :
    env.evalExpr (.member object property t) = env.propertyOfCopy object property t := by
  rw [evalExpr, propertyOfCopy]
  cases object with
  | ident name token => rw [evalExpr, Expr.name?]
  | _ => rfl

theorem itemOfCopy_of_done {object : Expr} {v : Value} {m : Machine}
    (h : env.evalExpr object m = .done v m) (position : Expr) (t : Token) :
    env.itemOfCopy object position t m = (do
      let i ← env.evalPosition position
      Evaluation.ofExcept t.location (v.getItem i) : Eval Value) m :=
  Eval.bind_of_done h

theorem evalExpr_ident (x : Text) (token : Token) (m : Machine) :
    env.evalExpr (.ident x token) m = .done (m.valueOf x) m := by
  rw [evalExpr, Eval.read_eq_done]

/-- The item that a variable has after the index is the one it had before if the index leaves it
alone. -/
theorem evalExpr_index_ident_eq_iff (x : Text) (token : Token) (position : Expr) (t : Token)
    (m : Machine) :
    env.evalExpr (.index (.ident x token) position t) m =
        env.itemOfCopy (.ident x token) position t m ↔
      ∀ i m', env.evalPosition position m = .done i m' →
        (m'.valueOf x).getItem i = (m.valueOf x).getItem i := by
  rw [evalExpr_index_ident, env.itemOfCopy_of_done (env.evalExpr_ident x token m)]
  cases h : env.evalPosition position m with
  | done i m₁ =>
    rw [Eval.bind_of_done h, Eval.bind_of_done h, Eval.bind_of_done (Eval.read_eq_done m₁ x),
      Eval.ofExcept_inj]
    simp
  | fault e m₁ => simp [Eval.bind_of_fault h]
  | exhausted => simp [Eval.bind_of_exhausted h]

/-- `[x][0]` has the value of `x`, unless that is a reference: arrays hold what it refers to. -/
theorem evalExpr_first_of_array {x : Text} {m : Machine} (h : (m.valueOf x).kind ≠ .nameRef)
    (t₁ t₂ t₃ t₄ : Token) :
    env.evalExpr (.index (.array [.ident x t₁] t₂) (.number .zero t₃) t₄) m =
      .done (m.valueOf x) m := by
  have hresolve : (resolve (m.valueOf x) : Eval Value) m = .done (m.valueOf x) m := by
    cases hv : m.valueOf x with
    | nameRef name => exact absurd (congrArg Value.kind hv) h
    | _ => rfl
  have harray : env.evalExpr (.array [.ident x t₁] t₂) m = .done (.array [m.valueOf x]) m := by
    rw [evalExpr]
    simp only [evalAll, bind_assoc, pure_bind]
    rw [Eval.bind_of_done (env.evalExpr_ident x t₁ m), Eval.bind_of_done hresolve]
    rfl
  have hposition : env.evalPosition (.number .zero t₃) m = .done (.number .zero) m := by
    rw [evalPosition, evalExpr]
    rfl
  rw [env.evalExpr_index_of_name? rfl, env.itemOfCopy_of_done harray, Eval.bind_of_done hposition,
    Value.getItem_zero]
  rfl

end Env

theorem Eval.machine_of_resolve {v i : Value} {m m' : Machine}
    (h : (Evaluation.resolve v : Eval Value) m = .done i m') : m' = m := by
  cases v <;> cases h <;> rfl

/-- An index that does not assign a variable leaves it as it reads. -/
theorem Env.valueOf_kept {rules : Rules} {rounds : Nat} {x : Text} {position : Expr}
    (hx : x ∉ position.assigned) {m m' : Machine} {i : Value}
    (h : (rules.env rounds).evalPosition position m = .done i m') :
    m'.valueOf x = m.valueOf x := by
  obtain ⟨v, m₁, hv, hi⟩ := Eval.bind_eq_done_iff.mp h
  obtain rfl := Eval.machine_of_resolve hi
  have hrun := (Contract.respects_sparing x rules rounds).evalExpr position
    (Expr.fits_sparing hx) ⟨m, []⟩ trivial
  have hleaves := hrun.fulfils.leaves fun _ hstep => hstep
  rw [hv] at hleaves
  have hsame : Frame.SameAt x m.frame m'.frame := hleaves
  rw [Machine.valueOf, hsame, Machine.valueOf]

/-- A property is read from the value that its object has, and so is an item, except that a variable
is read after its index. The outcome is the one of reading it before if and only if the variable has
the same item at that index before and after. So it is if the index does not assign the variable,
whatever it calls, and also if it ends in a fault. Reading it before is what `[x][0][e]` does,
unless `x` holds a reference. -/
theorem variable_read_in_place (s : Session) (rounds : Nat) :
    (∀ object property t, s.perform rounds (·.evalExpr (.member object property t)) =
      s.perform rounds (·.propertyOfCopy object property t)) ∧
    (∀ object position t, object.name? = none →
      s.perform rounds (·.evalExpr (.index object position t)) =
        s.perform rounds (·.itemOfCopy object position t)) ∧
    ∀ x token position t,
      (s.perform rounds (·.evalExpr (.index (.ident x token) position t)) =
          s.perform rounds (·.itemOfCopy (.ident x token) position t) ↔
        ∀ i m, s.perform rounds (·.evalPosition position) = .done i m →
          (m.valueOf x).getItem i = (s.machine.valueOf x).getItem i) ∧
      (x ∉ position.assigned →
        s.perform rounds (·.evalExpr (.index (.ident x token) position t)) =
          s.perform rounds (·.itemOfCopy (.ident x token) position t)) ∧
      ((s.machine.valueOf x).kind ≠ .nameRef → ∀ t₁ t₂ t₃ t₄,
        s.perform rounds (·.evalExpr
            (.index (.index (.array [.ident x t₁] t₂) (.number .zero t₃) t₄) position t)) =
          s.perform rounds (·.itemOfCopy (.ident x token) position t)) := by
  simp only [Session.perform, Env.evalExpr_member]
  refine ⟨fun _ _ _ => trivial, ?_, fun x token position t => ⟨?_, fun hx => ?_, ?_⟩⟩
  · intro object position t h
    rw [Env.evalExpr_index_of_name? _ h]
  · exact Env.evalExpr_index_ident_eq_iff _ x token position t s.machine
  · rw [Env.evalExpr_index_ident_eq_iff]
    intro i m h
    rw [Env.valueOf_kept hx h]
  · intro hkind t₁ t₂ t₃ t₄
    have hfirst := Env.evalExpr_first_of_array (s.rules.env rounds) hkind t₁ t₂ t₃ t₄
    have hident := Env.evalExpr_ident (s.rules.env rounds) x token s.machine
    rw [Env.evalExpr_index_of_name? _ (by rfl), Env.itemOfCopy_of_done _ hfirst,
      Env.itemOfCopy_of_done _ hident]

/-- With `x` an array, `x[y = 0]` reads the item that `x` had before. -/
theorem item_of_kept_variable :
    let name : Text := "x"
    let x : Expr := .ident name {}
    let position : Expr := .assign (.ident "y" {}) (.number .zero {}) {}
    let s : Session := { machine := { frame := [(name, .array [.boolean true])] } }
    name ∉ position.assigned ∧ (s.machine.valueOf name).kind ≠ .nameRef ∧
      s.perform 0 (·.evalExpr (.index x position {})) =
        s.perform 0 (·.itemOfCopy x position {}) ∧
      s.perform 0 (·.evalExpr
          (.index (.index (.array [x] {}) (.number .zero {}) {}) position {})) =
        s.perform 0 (·.itemOfCopy x position {}) := by
  intro name x position s
  obtain ⟨-, -, hvariable⟩ := variable_read_in_place s 0
  obtain ⟨-, hkept, hfirst⟩ := hvariable name {} position {}
  have hname : name ∉ position.assigned := by decide +kernel
  have hkind : (s.machine.valueOf name).kind ≠ .nameRef := by decide +kernel
  exact ⟨hname, hkind, hkept hname, hfirst hkind {} {} {} {}⟩

/-- With `x` an array, `x[x = 0]` has no array to read from any more, and `[x][0][x = 0]` has. -/
theorem item_of_replaced_variable :
    let x : Expr := .ident "x" {}
    let position : Expr := .assign x (.number .zero {}) {}
    let s : Session := { machine := { frame := [("x", .array [.boolean true])] } }
    let m : Machine := { frame := [("x", .number .zero)] }
    s.perform 0 (·.evalExpr (.index x position {})) =
        .fault ⟨.notIndexable .number, ({} : Token).location⟩ m ∧
      s.perform 0 (·.itemOfCopy x position {}) = .done (.boolean true) m ∧
      s.perform 0 (·.evalExpr
          (.index (.index (.array [x] {}) (.number .zero {}) {}) position {})) =
        .done (.boolean true) m := by
  intro x position s m
  let env : Env := s.rules.env 0
  have hposition : env.evalPosition position s.machine = .done (.number .zero) m := rfl
  have hcopy {object : Expr}
      (h : env.evalExpr object s.machine = .done (.array [.boolean true]) s.machine) :
      env.itemOfCopy object position {} s.machine = .done (.boolean true) m := by
    rw [env.itemOfCopy_of_done h, Eval.bind_of_done hposition, Value.getItem_zero]
    rfl
  refine ⟨rfl, hcopy rfl, ?_⟩
  rw [Session.perform, Env.evalExpr_index_of_name? _ rfl]
  exact hcopy (env.evalExpr_first_of_array (by decide +kernel) {} {} {} {})

end Script
