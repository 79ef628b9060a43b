import Script.Proofs.MapTokens
import Script.Proofs.Simulation.Expr

/-! # Statements and programs respect simulations -/

namespace Script.Simulation

open Evaluation

variable {M N : Type → Type} [Evaluation M] [Evaluation N] {S : Simulation M N}
  {env : Env M} {env' : Env N}

theorem forall_stmt_partsAll {P : Stmt → Prop} {stmts : List Stmt} :
    (∀ p ∈ Stmt.partsAll stmts, P p) ↔ ∀ s ∈ stmts, ∀ p ∈ s.parts, P p := by
  induction stmts with
  | nil => simp [Stmt.partsAll]
  | cons s rest ih =>
      simp only [Stmt.partsAll, List.forall_mem_append, List.forall_mem_cons, ih]

/-! ## Declarations -/

theorem makeFunction (name : Text) (params : List Text) (body : List Stmt) (token : Token) :
    S.Holds (fun f => ∃ id, f = ⟨name, params, some ⟨id, name, params, body⟩, token⟩)
      (Env.makeFunction name params body token) (Env.makeFunction name params body token) :=
  S.bind S.freshBody fun id _ => S.pure ⟨id, by rw [Stmt.copyAll_eq]⟩

theorem addMembers (name : Text) (token : Token) (members : List Stmt)
    (hmembers : ∀ s ∈ members, s.isFunc = false →
      S.Raisable (.classMember name) (s.memberLocation token)) (fields : Table Value) :
    S.Holds (Stmt.AddTo members fields) (Env.addMembers name token members fields)
      (Env.addMembers name token members fields) := by
  induction members generalizing fields with
  | nil => exact S.pure rfl
  | cons s rest ih =>
      have hs := hmembers s (by simp)
      cases s with
      | func f params body t =>
          simp only [Env.addMembers]
          refine S.bind (makeFunction f params body t) ?_
          rintro _ ⟨id, rfl⟩
          refine S.mono (ih (fun s hs => hmembers s (List.mem_cons_of_mem _ hs)) _) ?_
          intro final hfinal
          exact ⟨id, hfinal⟩
      | _ => exact S.raise (hs rfl)

theorem declareClass {name : Text} {members : List Stmt} {token : Token}
    (hs : (Stmt.classDef name members token).Fit S.toTerms) :
    S.Holds (fun _ => True) (Env.declareClass name members token)
      (Env.declareClass name members token) := by
  obtain ⟨-, hfields, hmembers⟩ := hs
  refine S.bind (addMembers name token members hmembers _) fun fields hf => ?_
  exact S.declare (hfields fields hf)

/-! ## Execution -/

theorem Respects.condition (h : S.Respects env env') {e : Expr} (he : e.Fits S.toTerms) :
    S.Holds (fun _ => True) (do return (← env.evalExpr e).isTrue)
      (do return (← env'.evalExpr e).isTrue) :=
  S.bind (h.evalExpr e he) fun _ _ => S.pure trivial

theorem Respects.loopCondition (h : S.Respects env env') {e : Expr} (he : e.Fits S.toTerms) :
    S.Holds (fun _ => True) (env.loopCondition e) (env'.loopCondition e) := by
  simp only [Env.loopCondition]
  split
  · exact S.pure trivial
  · exact h.condition he

mutual

theorem Respects.evalStmt (h : S.Respects env env') (s : Stmt) (hs : s.Fits S.toTerms) :
    S.Holds (Flow.Good S.toTerms) (env.evalStmt s) (env'.evalStmt s) := by
  have hself := hs s s.self_mem_parts
  match s with
  | .hole => exact S.pure trivial
  | .expr e t =>
      exact S.bind (h.evalExpr e (hself.1 e (by simp [Stmt.exprs]))) fun _ _ => S.pure trivial
  | .func name params body t =>
      refine S.bind (makeFunction name params body t) ?_
      rintro _ ⟨id, rfl⟩
      exact S.bind (S.declare (hself.2 id)) fun _ _ => S.pure trivial
  | .classDef name members t => exact S.bind (declareClass hself) fun _ _ => S.pure trivial
  | .ret value t =>
      exact S.bind (h.evalExpr value (hself.1 value (by simp [Stmt.exprs]))) fun _ hv => S.pure hv
  | .branch condition thenBody hasElse elseBody t =>
      simp only [Stmt.Fits, Stmt.parts, List.forall_mem_cons, List.forall_mem_append] at hs
      obtain ⟨-, hthen, helse⟩ := hs
      simp only [Env.evalStmt]
      refine S.bind (h.evalExpr condition (hself.1 condition (by simp [Stmt.exprs]))) fun v _ => ?_
      split_ifs
      · exact Respects.evalBlock h thenBody (forall_stmt_partsAll.mp hthen)
      · exact Respects.evalBlock h elseBody (forall_stmt_partsAll.mp helse)
      · exact S.pure trivial
  | .whileLoop condition body t =>
      simp only [Stmt.Fits, Stmt.parts, List.forall_mem_cons] at hs
      simp only [Env.evalStmt]
      exact h.loop hself.2 (h.condition (hself.1 condition (by simp [Stmt.exprs])))
        (Respects.evalBlock h body (forall_stmt_partsAll.mp hs.2))
  | .forLoop init condition post body t =>
      simp only [Stmt.Fits, Stmt.parts, List.forall_mem_cons, List.forall_mem_append] at hs
      obtain ⟨-, hinit, hbody⟩ := hs
      simp only [Env.evalStmt]
      refine S.bind (Respects.evalStmt h init hinit) fun flow hflow => ?_
      cases flow with
      | returned v => exact S.pure hflow
      | normal =>
          refine h.loop hself.2 (h.loopCondition (hself.1 condition (by simp [Stmt.exprs]))) ?_
          have hrun := Respects.evalBlock h body (forall_stmt_partsAll.mp hbody)
          refine S.bind hrun fun flow hflow => ?_
          cases flow with
          | returned v => exact S.pure hflow
          | normal =>
              exact S.bind (h.evalExpr post (hself.1 post (by simp [Stmt.exprs]))) fun _ _ =>
                S.pure trivial

theorem Respects.evalBlock (h : S.Respects env env') (stmts : List Stmt)
    (hstmts : ∀ s ∈ stmts, s.Fits S.toTerms) :
    S.Holds (Flow.Good S.toTerms) (env.evalBlock stmts) (env'.evalBlock stmts) := by
  match stmts with
  | [] => exact S.pure trivial
  | s :: rest =>
      simp only [Env.evalBlock]
      refine S.bind (Respects.evalStmt h s (hstmts s (by simp))) fun flow hflow => ?_
      cases flow with
      | returned v => exact S.pure hflow
      | normal => exact Respects.evalBlock h rest fun s hs => hstmts s (List.mem_cons_of_mem _ hs)

end

/-! ## Programs -/

theorem Respects.evaluate (h : S.Respects env env') {program : Program}
    (hp : ∀ s ∈ program.body, s.Fits S.toTerms) :
    S.Holds (fun _ => True) (env.evaluate program) (env'.evaluate program) :=
  S.bind (h.evalBlock program.body hp) fun _ _ => S.pure trivial

theorem Respects.callMain (h : S.Respects env env') (hentry : S.AtEntry) {args : Value}
    (hargs : S.Good args) : S.Holds S.Good (env.callMain args) (env'.callMain args) := by
  refine S.bind (S.declared? _) fun found hfound => ?_
  cases found with
  | none => exact S.raise (hentry _ (by simp))
  | some v =>
      cases v with
      | function f =>
          have hf : S.Good (.function f) := hfound _ rfl
          have hat := S.closed.function hf
          dsimp only
          split
          · exact h.call hf (by simpa using hargs) hat
          · exact S.raise (hat _ (by simp))
      | _ => exact S.raise (hentry _ (by simp [Value.kind]))

theorem Respects.runMain (h : S.Respects env env') (hentry : S.AtEntry) {program : Program}
    (hp : ∀ s ∈ program.body, s.Fits S.toTerms) (args : List Text) :
    S.Holds S.Good (env.runMain program args) (env'.runMain program args) := by
  refine S.bind (h.evaluate hp) fun _ _ => h.callMain hentry ((S.closed.array _).mpr ?_)
  intro v hv
  obtain ⟨text, -, rfl⟩ := List.mem_map.mp hv
  exact S.closed.string text

end Script.Simulation
