import Script.Eval.Expr
import Mathlib.Data.List.Basic

/-! # Parts of trees

The expressions and statements inside a tree. The parts of a statement are those that are
executed with it in the same frame, so the bodies of declarations are not among them. -/

namespace Script

mutual

/-- An expression and all expressions inside it. -/
def Expr.parts : Expr → List Expr
  | e@(.negate operand _) => e :: operand.parts
  | e@(.binary _ left right _) => e :: (left.parts ++ right.parts)
  | e@(.assign target value _) => e :: (target.parts ++ value.parts)
  | e@(.call callee args _) => e :: (callee.parts ++ Expr.partsAll args)
  | e@(.method object _ args _) => e :: (object.parts ++ Expr.partsAll args)
  | e@(.member object _ _) => e :: object.parts
  | e@(.index object position _) => e :: (object.parts ++ position.parts)
  | e@(.array items _) => e :: Expr.partsAll items
  | e@(.construct _ args _) => e :: Expr.partsAll args
  | e => [e]

def Expr.partsAll : List Expr → List Expr
  | [] => []
  | e :: rest => e.parts ++ Expr.partsAll rest

end

/-- The expressions that stand directly in a statement. -/
def Stmt.exprs : Stmt → List Expr
  | .expr e _ => [e]
  | .ret value _ => [value]
  | .branch condition _ _ _ _ => [condition]
  | .whileLoop condition _ _ => [condition]
  | .forLoop _ condition post _ _ => [condition, post]
  | _ => []

mutual

/-- A statement and all statements that are executed as parts of it. -/
def Stmt.parts : Stmt → List Stmt
  | s@(.branch _ thenBody _ elseBody _) => s :: (Stmt.partsAll thenBody ++ Stmt.partsAll elseBody)
  | s@(.whileLoop _ body _) => s :: Stmt.partsAll body
  | s@(.forLoop init _ _ body _) => s :: (init.parts ++ Stmt.partsAll body)
  | s => [s]

def Stmt.partsAll : List Stmt → List Stmt
  | [] => []
  | s :: rest => s.parts ++ Stmt.partsAll rest

end

theorem Expr.self_mem_parts (e : Expr) : e ∈ e.parts := by
  cases e <;> simp [Expr.parts]

theorem Expr.root_mem_parts (e : Expr) : e.root ∈ e.parts := by
  match e with
  | .index object position t =>
      exact List.mem_cons_of_mem _ (List.mem_append_left _ object.root_mem_parts)
  | .member object property t => exact List.mem_cons_of_mem _ object.root_mem_parts
  | .hole | .number .. | .string .. | .boolean .. | .null .. | .ident .. | .negate .. | .binary ..
  | .assign .. | .call .. | .method .. | .array .. | .construct .. =>
      simp [Expr.root, Expr.parts]

mutual

/-- The parts of a part of an expression are parts of the expression. -/
theorem Expr.parts_of_parts (e : Expr) {p q : Expr} (hp : p ∈ e.parts) (hq : q ∈ p.parts) :
    q ∈ e.parts := by
  match e with
  | .negate operand t =>
      rcases List.mem_cons.mp hp with rfl | hp
      · exact hq
      · exact List.mem_cons_of_mem _ (operand.parts_of_parts hp hq)
  | .member object property t =>
      rcases List.mem_cons.mp hp with rfl | hp
      · exact hq
      · exact List.mem_cons_of_mem _ (object.parts_of_parts hp hq)
  | .binary _ left right t | .assign left right t | .index left right t =>
      simp only [Expr.parts, List.mem_cons, List.mem_append] at hp
      rcases hp with rfl | hp | hp
      · exact hq
      · exact List.mem_cons_of_mem _ (List.mem_append_left _ (left.parts_of_parts hp hq))
      · exact List.mem_cons_of_mem _ (List.mem_append_right _ (right.parts_of_parts hp hq))
  | .call object args t | .method object _ args t =>
      simp only [Expr.parts, List.mem_cons, List.mem_append] at hp
      rcases hp with rfl | hp | hp
      · exact hq
      · exact List.mem_cons_of_mem _ (List.mem_append_left _ (object.parts_of_parts hp hq))
      · exact List.mem_cons_of_mem _ (List.mem_append_right _ (Expr.partsAll_of_parts args hp hq))
  | .array items t | .construct _ items t =>
      rcases List.mem_cons.mp hp with rfl | hp
      · exact hq
      · exact List.mem_cons_of_mem _ (Expr.partsAll_of_parts items hp hq)
  | .hole | .number .. | .string .. | .boolean .. | .null .. | .ident .. =>
      simp only [Expr.parts, List.mem_singleton] at hp
      subst hp
      exact hq

theorem Expr.partsAll_of_parts (es : List Expr) {p q : Expr} (hp : p ∈ Expr.partsAll es)
    (hq : q ∈ p.parts) : q ∈ Expr.partsAll es := by
  match es with
  | [] => cases hp
  | e :: rest =>
      rcases List.mem_append.mp hp with hp | hp
      · exact List.mem_append_left _ (e.parts_of_parts hp hq)
      · exact List.mem_append_right _ (Expr.partsAll_of_parts rest hp hq)

end

theorem Expr.forall_partsAll {P : Expr → Prop} {es : List Expr} :
    (∀ p ∈ Expr.partsAll es, P p) ↔ ∀ e ∈ es, ∀ p ∈ e.parts, P p := by
  induction es with
  | nil => simp [Expr.partsAll]
  | cons e rest ih =>
      simp only [Expr.partsAll, List.forall_mem_append, List.forall_mem_cons, ih]

theorem Stmt.self_mem_parts (s : Stmt) : s ∈ s.parts := by
  cases s <;> simp [Stmt.parts]

mutual

/-- A statement and all statements inside it, those in the bodies of declarations included. -/
def Stmt.statements : Stmt → List Stmt
  | s@(.func _ _ body _) => s :: Stmt.statementsAll body
  | s@(.classDef _ members _) => s :: Stmt.statementsAll members
  | s@(.branch _ thenBody _ elseBody _) =>
    s :: (Stmt.statementsAll thenBody ++ Stmt.statementsAll elseBody)
  | s@(.whileLoop _ body _) => s :: Stmt.statementsAll body
  | s@(.forLoop init _ _ body _) => s :: (init.statements ++ Stmt.statementsAll body)
  | s => [s]

def Stmt.statementsAll : List Stmt → List Stmt
  | [] => []
  | s :: rest => s.statements ++ Stmt.statementsAll rest

end

/-- All statements of a program. -/
def Program.statements (program : Program) : List Stmt :=
  Stmt.statementsAll program.body

theorem Stmt.self_mem_statements (s : Stmt) : s ∈ s.statements := by
  cases s <;> simp [Stmt.statements]

theorem Stmt.mem_statementsAll {stmts : List Stmt} {s q : Stmt} (hs : s ∈ stmts)
    (hq : q ∈ s.statements) : q ∈ Stmt.statementsAll stmts := by
  induction stmts with
  | nil => cases hs
  | cons first rest ih =>
      rcases List.mem_cons.mp hs with rfl | hs
      · exact List.mem_append_left _ hq
      · exact List.mem_append_right _ (ih hs)

theorem Stmt.forall_statementsAll {P : Stmt → Prop} {stmts : List Stmt} :
    (∀ q ∈ Stmt.statementsAll stmts, P q) ↔ ∀ s ∈ stmts, ∀ q ∈ s.statements, P q := by
  induction stmts with
  | nil => simp [Stmt.statementsAll]
  | cons s rest ih =>
      simp only [Stmt.statementsAll, List.forall_mem_append, List.forall_mem_cons, ih]

mutual

/-- What is inside a part of a statement is inside the statement. -/
theorem Stmt.statements_of_parts (s : Stmt) {p q : Stmt} (hp : p ∈ s.parts)
    (hq : q ∈ p.statements) : q ∈ s.statements := by
  match s with
  | .branch condition thenBody hasElse elseBody t =>
      simp only [Stmt.parts, List.mem_cons, List.mem_append] at hp
      rcases hp with rfl | hp | hp
      · exact hq
      · have hin := Stmt.statementsAll_of_parts thenBody hp hq
        exact List.mem_cons_of_mem _ (List.mem_append_left _ hin)
      · have hin := Stmt.statementsAll_of_parts elseBody hp hq
        exact List.mem_cons_of_mem _ (List.mem_append_right _ hin)
  | .whileLoop condition body t =>
      simp only [Stmt.parts, List.mem_cons] at hp
      rcases hp with rfl | hp
      · exact hq
      · exact List.mem_cons_of_mem _ (Stmt.statementsAll_of_parts body hp hq)
  | .forLoop init condition post body t =>
      simp only [Stmt.parts, List.mem_cons, List.mem_append] at hp
      rcases hp with rfl | hp | hp
      · exact hq
      · have hin := Stmt.statements_of_parts init hp hq
        exact List.mem_cons_of_mem _ (List.mem_append_left _ hin)
      · have hin := Stmt.statementsAll_of_parts body hp hq
        exact List.mem_cons_of_mem _ (List.mem_append_right _ hin)
  | .hole | .expr .. | .func .. | .classDef .. | .ret .. =>
      simp only [Stmt.parts, List.mem_singleton] at hp
      subst hp
      exact hq

theorem Stmt.statementsAll_of_parts (stmts : List Stmt) {p q : Stmt}
    (hp : p ∈ Stmt.partsAll stmts) (hq : q ∈ p.statements) : q ∈ Stmt.statementsAll stmts := by
  match stmts with
  | [] => cases hp
  | s :: rest =>
      rcases List.mem_append.mp hp with hp | hp
      · exact List.mem_append_left _ (s.statements_of_parts hp hq)
      · exact List.mem_append_right _ (Stmt.statementsAll_of_parts rest hp hq)

end

mutual

/-- What is inside a statement that is inside another is inside the other. -/
theorem Stmt.statements_trans (s : Stmt) {p q : Stmt} (hp : p ∈ s.statements)
    (hq : q ∈ p.statements) : q ∈ s.statements := by
  match s with
  | .func name params body t | .classDef name body t | .whileLoop condition body t =>
      rcases List.mem_cons.mp hp with rfl | hp
      · exact hq
      · exact List.mem_cons_of_mem _ (Stmt.statementsAll_trans body hp hq)
  | .branch condition thenBody hasElse elseBody t =>
      simp only [Stmt.statements, List.mem_cons, List.mem_append] at hp
      rcases hp with rfl | hp | hp
      · exact hq
      · have hin := Stmt.statementsAll_trans thenBody hp hq
        exact List.mem_cons_of_mem _ (List.mem_append_left _ hin)
      · have hin := Stmt.statementsAll_trans elseBody hp hq
        exact List.mem_cons_of_mem _ (List.mem_append_right _ hin)
  | .forLoop init condition post body t =>
      simp only [Stmt.statements, List.mem_cons, List.mem_append] at hp
      rcases hp with rfl | hp | hp
      · exact hq
      · exact List.mem_cons_of_mem _ (List.mem_append_left _ (init.statements_trans hp hq))
      · have hin := Stmt.statementsAll_trans body hp hq
        exact List.mem_cons_of_mem _ (List.mem_append_right _ hin)
  | .hole | .expr .. | .ret .. =>
      simp only [Stmt.statements, List.mem_singleton] at hp
      subst hp
      exact hq

theorem Stmt.statementsAll_trans (stmts : List Stmt) {p q : Stmt}
    (hp : p ∈ Stmt.statementsAll stmts) (hq : q ∈ p.statements) : q ∈ Stmt.statementsAll stmts := by
  match stmts with
  | [] => cases hp
  | s :: rest =>
      rcases List.mem_append.mp hp with hp | hp
      · exact List.mem_append_left _ (s.statements_trans hp hq)
      · exact List.mem_append_right _ (Stmt.statementsAll_trans rest hp hq)

end

/-! ## Targets -/

theorem Expr.eq_of_whole {target : Expr} {token : Token} {name : Text}
    (h : target.place token = .whole name) : ∃ t, target = .ident name t := by
  cases target with
  | ident x t =>
      cases h
      exact ⟨t, rfl⟩
  | _ =>
      simp only [Expr.place] at h
      split at h <;> cases h

theorem Expr.root_of_inside {target : Expr} {token rootToken : Token} {name : Text}
    (h : target.place token = .inside name rootToken) :
    target.root = .ident name rootToken ∧ target.root ≠ target := by
  cases target with
  | index object position t =>
      simp only [Expr.place] at h
      split at h <;> simp_all [Expr.root]
  | member object property t =>
      simp only [Expr.place] at h
      split at h <;> simp_all [Expr.root]
  | _ => simp [Expr.place, Expr.root] at h

/-- The property names on a chain of indexes and properties. -/
def Expr.chainKeys : Expr → List Text
  | .index object _ _ => object.chainKeys
  | .member object property _ => property :: object.chainKeys
  | _ => []

/-! ## Occurrences -/

def Stmt.funcBody? : Stmt → Option (List Stmt)
  | .func _ _ body _ => some body
  | _ => none

/-- The sequences of statements that stand directly in a statement. The members of a class are not
executed themselves, only their bodies are. -/
def Stmt.blocks : Stmt → List (List Stmt)
  | .func _ _ body _ => [body]
  | .classDef _ members _ => members.filterMap Stmt.funcBody?
  | .branch _ thenBody _ elseBody _ => [thenBody, elseBody]
  | .whileLoop _ body _ => [body]
  | .forLoop init _ _ body _ => [[init], body]
  | _ => []

/-- A statement is one of a sequence, or stands in a body or branch inside it. -/
inductive Stmt.OccursIn (s : Stmt) : List Stmt → Prop
  | here {stmts : List Stmt} : s ∈ stmts → OccursIn s stmts
  | inside {stmts block : List Stmt} {q : Stmt} :
    q ∈ stmts → block ∈ q.blocks → OccursIn s block → OccursIn s stmts

/-- What occurs in a block of an occurring statement occurs in the whole. -/
theorem Stmt.OccursIn.block {d q : Stmt} {stmts block : List Stmt} (hd : d.OccursIn stmts)
    (hblock : block ∈ d.blocks) (hq : q.OccursIn block) : q.OccursIn stmts := by
  induction hd with
  | here hd => exact .inside hd hblock hq
  | inside hd hin _ ih => exact .inside hd hin ih

end Script
