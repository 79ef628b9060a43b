import Script.Proofs.MapTokens
import Script.Proofs.Operation
import Script.Syntax.Outline

/-!
# Copies of trees

A tree that is built anew, node by node, is the same tree. So a copy has the same text and the same
outline, and it is evaluated in the same way. The function that a declaration makes executes a copy
of the declared body, and the heap may keep further copies of all bodies.
-/

namespace Script

/-! ## Bodies in the heap -/

/-- The same function with a copy of its body. -/
def Function.copyBody (f : Function) : Function :=
  { f with body := f.body.map fun body => { body with stmts := Stmt.copyAll body.stmts } }

theorem Function.copyBody_eq (f : Function) : f.copyBody = f := by
  obtain ⟨name, params, body, token⟩ := f
  simp only [copyBody, Stmt.copyAll_eq, Option.map_id']

namespace Value

mutual

/-- The same value with a copy of every function body in it. -/
def copyBodies : Value → Value
  | .null => .null
  | .number x => .number x
  | .string s => .string s
  | .boolean b => .boolean b
  | .array items => .array (copyItems items)
  | .nameRef name => .nameRef name
  | .function f => .function f.copyBody
  | .object fields => .object (copyFields fields)

def copyItems : List Value → List Value
  | [] => []
  | v :: rest => v.copyBodies :: copyItems rest

def copyFields : List (Text × Value) → List (Text × Value)
  | [] => []
  | (key, v) :: rest => (key, v.copyBodies) :: copyFields rest

end

mutual

theorem copyBodies_eq (v : Value) : v.copyBodies = v := by
  match v with
  | .null | .number _ | .string _ | .boolean _ | .nameRef _ => rfl
  | .array items => rw [copyBodies, copyItems_eq items]
  | .function f => rw [copyBodies, f.copyBody_eq]
  | .object fields => rw [copyBodies, copyFields_eq fields]

theorem copyItems_eq (items : List Value) : copyItems items = items := by
  match items with
  | [] => rfl
  | v :: rest => rw [copyItems, v.copyBodies_eq, copyItems_eq rest]

theorem copyFields_eq (fields : List (Text × Value)) : copyFields fields = fields := by
  match fields with
  | [] => rfl
  | (key, v) :: rest => rw [copyFields, v.copyBodies_eq, copyFields_eq rest]

end

end Value

/-- Evaluations in which the heap owns its bodies: a function or class is declared with a copy of
every body in it, so that no call executes a part of the program's own tree. -/
def Owning (M : Type → Type) (α : Type) : Type :=
  M α

section Owning

variable {M : Type → Type} [Evaluation M]

instance : Evaluation (Owning M) :=
  { (inferInstance : Evaluation M) with
    declare := fun name value => Evaluation.declare (M := M) name value.copyBodies }

/-- Of all effects only declaring could tell the two kinds apart. -/
theorem Owning.evaluation_eq :
    (inferInstance : Evaluation (Owning M)) = (inferInstance : Evaluation M) := by
  have hdeclare : (fun name value => Evaluation.declare (M := M) name value.copyBodies) =
      Evaluation.declare := by
    funext name value
    rw [value.copyBodies_eq]
  unfold inferInstance instEvaluationOwning
  rw [hdeclare]
  rfl

theorem Operation.perform_owning (op : Operation) (rules : Rules) (rounds : Nat) :
    op.perform (rules.env rounds : Env (Owning M)) = op.perform (rules.env rounds : Env M) :=
  congrArg (fun inst : Evaluation M => @Operation.perform M inst op (@Rules.env M inst rules rounds))
    Owning.evaluation_eq

end Owning

/-- Copies are exact, whatever holes the trees have. A copied expression or statement, a copied
list of them and a copied program are equal to what they were copied from, so they have the same
text and the same outline. In every environment a copy is evaluated as the original is, and the
copied body of a declared function is the body that was declared. Where the heap owns its bodies
too, so that each function and method is executed in a copy, a copied program is evaluated and run
as the original is in a plain evaluation, and a host finds no difference in any operation. -/
theorem copied_trees_exact (e : Expr) (es : List Expr) (s : Stmt) (stmts : List Stmt)
    (p : Program) :
    let copied : Program := { p with body := Stmt.copyAll p.body }
    (e.copy = e ∧ Expr.copyAll es = es ∧ s.copy = s ∧ Stmt.copyAll stmts = stmts ∧ copied = p) ∧
    (e.copy.text = e.text ∧ s.copy.text = s.text ∧
      ∀ indent, copied.outline indent = p.outline indent) ∧
    ∀ (M : Type → Type) [Evaluation M],
      (∀ env : Env M, env.evalExpr e.copy = env.evalExpr e ∧
        env.evalAll (Expr.copyAll es) = env.evalAll es ∧ env.evalStmt s.copy = env.evalStmt s ∧
        env.evalBlock (Stmt.copyAll stmts) = env.evalBlock stmts) ∧
      (∀ name params token, (Env.makeFunction name params stmts token : M Function) = do
        return ⟨name, params, some ⟨← Evaluation.freshBody, name, params, stmts⟩, token⟩) ∧
      ∀ (rules : Rules) (rounds : Nat),
        let owning : Env (Owning M) := rules.env rounds
        let plain : Env M := rules.env rounds
        owning.evaluate copied = plain.evaluate p ∧
        (∀ args, owning.runMain copied args = plain.runMain p args) ∧
        ∀ op : Operation, op.perform owning = op.perform plain := by
  intro copied
  have hcopied : copied = p := congrArg (Program.mk p.token) (Stmt.copyAll_eq p.body)
  rw [e.copy_eq, Expr.copyAll_eq, s.copy_eq, Stmt.copyAll_eq, hcopied]
  refine ⟨⟨rfl, rfl, rfl, rfl, rfl⟩, ⟨rfl, rfl, fun _ => rfl⟩, fun M _ => ⟨?_, ?_, ?_⟩⟩
  · exact fun env => ⟨rfl, rfl, rfl, rfl⟩
  · intro name params token
    rw [Env.makeFunction, Stmt.copyAll_eq]
  · intro rules rounds owning plain
    exact ⟨(Operation.evaluate p).perform_owning rules rounds,
      fun args => (Operation.run p args).perform_owning rules rounds,
      fun op => op.perform_owning rules rounds⟩

end Script
