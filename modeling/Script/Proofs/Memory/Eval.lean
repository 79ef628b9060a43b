import Script.Engine.Stmt
import Script.Proofs.Memory.Call
import Script.Proofs.Sequence

/-!
# Expressions and statements follow each other

Evaluation on the memory follows evaluation on values, by induction over the tree. What an
expression evaluates to belongs to nobody else, so it can be stored, returned and bound as it is.
-/

namespace Script

open Assertion

section

variable {K : Charter} {L : Nat} {P F R : Assertion} {v : Value} {w : Word} {t : Table Value}
  {e : Table Word}

/-! ## Operators -/

theorem Yields.equal {v' : Value} {w' : Word} :
    Yields K (word K v w * word K v' w') (Engine.equal w w')
      (fun b => fact (b = v.equal v')) := by
  intro c m R hs
  obtain ⟨Z, S, hZ, hS, hzone, hheap, T, S₂, -, hsub, ⟨S₁, S₁', hparts, hsub', hv, hv'⟩, hR⟩ :=
    hs.provides
  have hS₁ : S₁ ⊆ S :=
    (Finset.union_subset_iff.mp hsub').1.trans (Finset.union_subset_iff.mp hsub).1
  have hequal := Depicts.equal?_eq hv hv' hparts (hS₁.trans hS)
  refine ⟨v.equal v', c, by simp only [Engine.equal, hequal], hs.imp ?_, rfl, .refl K c⟩
  exact Entails.mul (fun _ _ _ _ => rfl) (Entails.refl R)

namespace Engine.Mirrors

variable {g : Engine} {env : Env} (h : g.Mirrors K env)
include h

theorem arithmetic (op : Number → Number → Number) {v' : Value} {w' : Word} :
    Follows K L (word K v w * word K v' w') (g.arithmetic op w w') (env.arithmetic op v v')
      (fun w v => word K v w) := by
  have hnumbers (σ : Memory) (Z S : Finset Address)
      (hp : (word K v w * word K v' w').Holds σ Z S) :
      w.shell = v.shell ∧ w'.shell = v'.shell :=
    ⟨word_shell σ Z S (mul_entails_left σ Z S hp), word_shell σ Z S (mul_entails_right σ Z S hp)⟩
  refine .learn hnumbers fun hshell => ?_
  have hplain : Follows K L (word K v w * word K v' w')
      (pure (.number (op w.shell.asNumber w'.shell.asNumber)) : Exec Word)
      (pure (.number (op v.asNumber v'.asNumber)) : Eval Value) (fun w v => word K v w) := by
    rw [hshell.1, hshell.2, Value.asNumber_shell, Value.asNumber_shell]
    exact .pure fun _ _ _ _ => rfl
  unfold Engine.arithmetic Env.arithmetic
  cases Word.like_of_shell hshell.1 with
  | string s =>
      refine ((h.display v' w').pre mul_entails_right).bind fun a b => ?_
      refine .learn (fun _ _ _ hab => hab) ?_
      rintro rfl
      exact .pure fun _ _ _ _ => rfl
  | _ => exact hplain

theorem applyBinary (op : BinaryOp) (token : Token) {v' : Value} {w' : Word} :
    Follows K L (word K v w * word K v' w') (g.applyBinary op w w' token)
      (env.applyBinary op v v' token) (fun w v => word K v w) := by
  unfold Engine.applyBinary Env.applyBinary
  cases op.arithmetic? with
  | some f => exact h.arithmetic f
  | none =>
      dsimp only
      split
      · refine .step Yields.equal fun b => .learn (fun _ _ _ hb => hb) ?_
        rintro rfl
        exact .pure fun _ _ _ _ => rfl
      · split
        · refine .step Yields.equal fun b => .learn (fun _ _ _ hb => hb) ?_
          rintro rfl
          exact .pure fun _ _ _ _ => rfl
        · refine .step (Yields.view.frame _) fun a => ?_
          rw [mul_assoc]
          refine .of_fact ?_
          rintro rfl
          refine .step (Yields.view.pre mul_entails_right) fun a' => .of_fact ?_
          rintro rfl
          cases a.compare? a' with
          | none => exact .pure fun _ _ _ _ => rfl
          | some order =>
              dsimp only
              cases op.orders? with
              | none => exact .raise _ _
              | some orders => exact .pure fun _ _ _ _ => rfl

end Engine.Mirrors

/-! ## Functions, methods and classes -/

/-- The entries of a table are known by their kinds, and those that are functions as a whole. -/
structure Charter.Alike (K : Charter) (t : Table Value) (e : Table Word) : Prop where
  entry (name : Text) : (Table.get? t name = none ∧ Table.get? e name = none) ∨
    ∃ v w, Table.get? t name = some v ∧ Table.get? e name = some w ∧ w.shell = v.shell ∧
      v.Throughout K.Allows
  className_eq : Word.className e = className t

theorem Spread.alike {σ : Memory} {S : Finset Address}
    (h : Spread (DepictsEntry K.Body σ) t e S) : K.Alike t e where
  entry name := by
    refine (h.entry name).imp id ?_
    rintro ⟨v, w, hget, hget', hv⟩
    exact ⟨v, w, hget, hget', hv.shell_eq, Depicts.allows v hv⟩
  className_eq := h.className_eq

theorem Yields.fields_of_shows {a : Address}
    (h : ∀ c m R, Scene K c m (P * R) → c.Shows K (.object t) (.object a)) :
    Yields K P (Exec.fields a) (fun e => fact (K.Alike t e) * P) := by
  intro c m R hs
  obtain ⟨T, -, hv⟩ := h c m R hs
  refine ⟨c.memory.fields a, c, rfl, hs.imp ?_, rfl, .refl K c⟩
  exact Entails.mul (fun _ _ _ hp => fact_mul.mpr ⟨hv.fields_eq.2.2.2.alike, hp⟩) (Entails.refl R)

theorem Yields.fields {a : Address} :
    Yields K (word K (.object t) (.object a)) (Exec.fields a)
      (fun e => fact (K.Alike t e) * word K (.object t) (.object a)) :=
  .fields_of_shows fun _ _ _ hs => hs.shows_word

theorem Yields.fields_frozen {a : Address} :
    Yields K (frozen K (.object t) (.object a)) (Exec.fields a)
      (fun e => fact (K.Alike t e) * frozen K (.object t) (.object a)) :=
  .fields_of_shows fun _ _ _ hs => hs.shows_frozen

theorem Follows.method (name : Text) (count : Nat) (token : Token) :
    Follows K L (word K v w) (Engine.method w name count token)
      (Env.method v name count token : Eval Function)
      (fun f f' => fact (f = f' ∧ ∀ s ∈ f'.stmts, K.Body s) * word K v w) := by
  refine .learn word_shell fun hshell => ?_
  cases Word.like_of_shell hshell with
  | object a fields =>
      refine .step Yields.fields fun e => .of_fact fun hentries => ?_
      rw [hentries.className_eq]
      dsimp only [Env.method]
      rcases hentries.entry name with ⟨hget, hget'⟩ | ⟨v, w, hget, hget', hsame, hallows⟩
      · rw [hget, hget']
        exact .raise _ _
      · rw [hget, hget']
        cases Word.like_of_shell hsame with
        | function f =>
            dsimp only
            split
            · exact .raise _ _
            · split
              · exact .pure fun _ _ _ hp => fact_mul.mpr ⟨⟨rfl, Charter.bodies hallows⟩, hp⟩
              · exact .raise _ _
        | _ => exact .raise _ _
  | _ => exact .raise _ _

theorem Follows.template (name : Text) (count : Nat) (token : Token) :
    Follows K L 1 (Engine.template name count token) (Env.template name count token : Eval _)
      (fun r s => fact (r.2 = s.2 ∧ ∀ f, s.2 = some f → ∀ s ∈ f.stmts, K.Body s) *
        frozen K (.object s.1) r.1) := by
  refine .declared_cases name (.raise _ _) fun w v hshell _ => ?_
  rw [mul_one]
  cases Word.like_of_shell hshell with
  | object a fields =>
      refine .step Yields.fields_frozen fun e => .of_fact fun hentries => ?_
      dsimp only
      rcases hentries.entry initKey with ⟨hget, hget'⟩ | ⟨v, w, hget, hget', hsame, hallows⟩
      · rw [hget, hget']
        exact .pure fun _ _ _ hp => fact_mul.mpr ⟨⟨rfl, by simp⟩, hp⟩
      · rw [hget, hget']
        cases Word.like_of_shell hsame with
        | function f =>
            dsimp only
            split
            · exact .raise _ _
            · split
              · refine .pure fun _ _ _ hp => fact_mul.mpr ⟨⟨rfl, ?_⟩, hp⟩
                rintro _ ⟨⟩
                exact Charter.bodies hallows
              · exact .raise _ _
        | _ => exact .pure fun _ _ _ hp => fact_mul.mpr ⟨⟨rfl, by simp⟩, hp⟩
  | _ => exact .raise _ _

/-- What is called executes only statements that may be executed. -/
def Charter.AllowsCallee (K : Charter) : Env.Callee → Prop
  | .native n => ∀ v, n = .constant v → v.Throughout K.Allows
  | .declared f => ∀ s ∈ f.stmts, K.Body s

namespace Engine.Mirrors

variable {g : Engine} {env : Env} (h : g.Mirrors K env)
include h

theorem callee (name : Text) (count : Nat) (token : Token) :
    Follows K L 1 (g.callee name count token) (env.callee name count token)
      (fun a b => fact (a = b ∧ K.AllowsCallee b)) := by
  unfold Engine.callee Env.callee
  rw [h.rules]
  cases hnative : Table.get? env.rules.natives name with
  | some n =>
      refine .pure fun _ _ _ _ => ⟨rfl, ?_⟩
      rintro v rfl
      exact h.constants name v hnative
  | none =>
      refine .declared_cases name (.raise _ _) fun w v hshell hallows => ?_
      cases Word.like_of_shell hshell with
      | function f =>
          dsimp only
          split
          · exact .pure fun _ _ _ _ => ⟨rfl, Charter.bodies hallows⟩
          · exact .raise _ _
      | _ => exact .raise _ _

theorem enter {callee : Env.Callee} (hcallee : K.AllowsCallee callee) (token : Token)
    {values : List Value} {ws : List Word} :
    Follows K L (words K values ws) (g.enter callee ws token) (env.enter callee values token)
      (fun w v => word K v w) := by
  cases callee with
  | native n => exact h.applyNative hcallee token
  | declared f => exact h.call hcallee token

end Engine.Mirrors

/-! ## Expressions -/

namespace Engine.Mirrors

variable {g : Engine} {env : Env}

mutual

theorem evalExpr (h : g.Mirrors K env) (e : Expr) :
    Follows K L 1 (g.evalExpr L e) (env.evalExpr e) (fun w v => word K v w) := by
  match e with
  | .hole | .number _ _ | .string _ _ | .boolean _ _ | .null _ =>
      rw [Engine.evalExpr, Env.evalExpr]
      exact .pure fun _ _ _ _ => rfl
  | .ident name _ =>
      rw [Engine.evalExpr, Env.evalExpr]
      exact .read name
  | .negate operand _ =>
      rw [Engine.evalExpr, Env.evalExpr]
      refine (h.evalExpr operand).bind fun _ _ => Follows.resolve.bind fun w v => ?_
      refine .learn word_shell fun hshell => ?_
      rw [hshell, Value.asNumber_shell]
      exact .pure fun _ _ _ _ => rfl
  | .binary op left right t =>
      rw [Engine.evalExpr, Env.evalExpr]
      refine (h.evalExpr left).bind fun _ _ => Follows.resolve.bind fun l l' => ?_
      refine (h.evalExpr right).beside fun _ _ => (Follows.resolve.frame _).bind fun r r' => ?_
      rw [mul_comm]
      exact h.applyBinary op t
  | .assign target value t =>
      rw [Engine.evalExpr, Env.evalExpr]
      refine (h.evalExpr value).bind fun new new' => ?_
      cases target.place t with
      | whole name =>
          refine .step Yields.copy fun w => ?_
          refine ((Follows.assign name).frame _).bind fun _ _ => .pure ?_
          exact mul_entails_right
      | inside name rootToken =>
          refine (h.evalSteps target).beside fun steps steps' => .of_fact ?_
          rintro rfl
          exact (Follows.store name rootToken steps').bind fun _ _ => .pure (Entails.refl _)
      | nowhere location => exact .raise _ _
  | .call callee args t =>
      rw [Engine.evalExpr, Env.evalExpr]
      cases callee.name? with
      | some name =>
          refine (h.callee name args.length t).bind fun a b => .learn (fun _ _ _ hp => hp) ?_
          rintro ⟨rfl, hallows⟩
          refine ((h.evalAll args).pre (entails_one _)).bind fun ws values => ?_
          exact h.enter hallows t
      | none => exact .raise _ _
  | .method object name args t =>
      rw [Engine.evalExpr, Env.evalExpr]
      refine (h.evalExpr object).bind fun _ _ => Follows.resolve.bind fun receiver v => ?_
      refine (Follows.method name args.length t).bind fun f f' => .of_fact ?_
      rintro ⟨rfl, hf⟩
      refine (h.evalAll args).beside fun ws values => ?_
      rw [mul_comm]
      exact h.callMethod hf t
  | .member object key t =>
      rw [Engine.evalExpr, Env.evalExpr]
      cases object.name? with
      | some name => exact .property_held name key t
      | none => exact (h.evalExpr object).bind fun _ _ => .property key t
  | .index object position t =>
      rw [Engine.evalExpr, Env.evalExpr]
      cases object.name? with
      | some name =>
          exact (h.evalExpr position).bind fun _ _ =>
            Follows.resolve.bind fun _ _ => .item_held name t
      | none =>
          refine (h.evalExpr object).bind fun w v => ?_
          refine (h.evalExpr position).beside fun _ _ => ?_
          refine (Follows.resolve.frame _).bind fun _ _ => ?_
          rw [mul_comm]
          exact .item t
  | .array items _ =>
      rw [Engine.evalExpr, Env.evalExpr]
      refine (h.evalAll items).bind fun ws values => .of_yields ?_
      exact Yields.array.bind fun a => .pure (Entails.refl _)
  | .construct name args t =>
      rw [Engine.evalExpr, Env.evalExpr]
      refine (Follows.template name args.length t).bind fun r s => .of_fact ?_
      obtain ⟨w, init⟩ := r
      obtain ⟨fields, init'⟩ := s
      rintro ⟨rfl, hinit⟩
      cases init with
      | none => exact .of_yields .copy_frozen
      | some f =>
          refine (h.evalAll args).beside fun ws values => ?_
          rw [mul_comm]
          exact h.instantiate (hinit f rfl) t

theorem evalAll (h : g.Mirrors K env) (es : List Expr) :
    Follows K L 1 (g.evalAll L es) (env.evalAll es) (fun ws values => words K values ws) := by
  match es with
  | [] =>
      rw [Engine.evalAll, Env.evalAll]
      exact .pure words_nil
  | e :: rest =>
      rw [Engine.evalAll, Env.evalAll]
      refine (h.evalExpr e).bind fun _ _ => Follows.resolve.bind fun w v => ?_
      refine (h.evalAll rest).beside fun ws values => .pure ?_
      rw [mul_comm]
      exact words_cons

theorem evalSteps (h : g.Mirrors K env) (e : Expr) :
    Follows K L 1 (g.evalSteps L e) (env.evalSteps e)
      (fun steps steps' => fact (steps = steps'.map Step.shell)) := by
  match e with
  | .index object position t =>
      rw [Engine.evalSteps, Env.evalSteps]
      refine (h.evalSteps object).bind fun steps steps' => .learn (fun _ _ _ hp => hp) ?_
      rintro rfl
      refine ((h.evalExpr position).pre (entails_one _)).bind fun _ _ => ?_
      refine Follows.resolve.bind fun w v => .learn word_shell fun hshell => ?_
      exact .pure fun _ _ _ _ => by simp [fact, Step.shell, hshell]
  | .member object key t =>
      rw [Engine.evalSteps, Env.evalSteps]
      refine (h.evalSteps object).bind fun steps steps' => .learn (fun _ _ _ hp => hp) ?_
      rintro rfl
      exact .pure fun _ _ _ _ => by simp [fact, Step.shell]
  | .hole | .number _ _ | .string _ _ | .boolean _ _ | .null _ | .ident _ _ | .negate _ _
  | .binary _ _ _ _ | .assign _ _ _ | .call _ _ _ | .method _ _ _ _ | .array _ _
  | .construct _ _ _ =>
      simp only [Engine.evalSteps, Env.evalSteps]
      exact .pure fun _ _ _ _ => rfl

end

end Engine.Mirrors

/-! ## Declarations -/

theorem Assertion.word_function {f : Function} (hf : ∀ s ∈ f.stmts, K.Body s) :
    Entails 1 (word K (.function f) (.function f)) :=
  fun _ _ _ _ => ⟨rfl, hf⟩

theorem Follows.makeFunction (name : Text) (params : List Text) (body : List Stmt)
    (token : Token) :
    Follows K L 1 (Engine.makeFunction name params body token)
      (Env.makeFunction name params body token : Eval Function)
      (fun f f' => fact (f = f' ∧
        ∃ id, f' = ⟨name, params, some ⟨id, name, params, body⟩, token⟩)) := by
  refine Follows.freshBody.bind fun id id' => .learn (fun _ _ _ hid => hid) ?_
  rintro rfl
  refine .pure fun _ _ _ _ => ⟨rfl, id, ?_⟩
  rw [Stmt.copyAll_eq]

theorem Follows.addMembers (name : Text) (token : Token) (members : List Stmt)
    (hbodies : ∀ block ∈ members.filterMap Stmt.funcBody?, ∀ s ∈ block, K.Body s) :
    Follows K L (table K t e) (Engine.addMembers name token members e)
      (Env.addMembers name token members t : Eval (Table Value))
      (fun e' t' => fact (Stmt.AddTo members t t') * table K t' e') := by
  induction members generalizing t e with
  | nil => exact .pure fun _ _ _ ht => fact_mul.mpr ⟨rfl, ht⟩
  | cons s rest ih =>
      cases s with
      | func f params body token' =>
          rw [Engine.addMembers, Env.addMembers]
          obtain ⟨hbody, hrest⟩ := List.forall_mem_cons.mp hbodies
          refine (Follows.makeFunction f params body token').beside fun f f' => .of_fact ?_
          rintro ⟨rfl, id, rfl⟩
          have hinsert := (Entails.refl (table K t e)).mul (word_function (K := K) (f :=
            ⟨f, params, some ⟨id, f, params, body⟩, token'⟩) hbody)
          rw [mul_one] at hinsert
          refine (ih hrest).conseq (hinsert.trans (table_insert _)) fun e' t' => ?_
          exact Entails.mul (fun _ _ _ hadd => ⟨id, hadd⟩) (Entails.refl _)
      | _ => exact .raise _ _

theorem Engine.makeFunction_still (name : Text) (params : List Text) (body : List Stmt)
    (token : Token) : (Engine.makeFunction name params body token).Still :=
  fun _ => rfl

theorem Engine.addMembers_still (name : Text) (token : Token) (members : List Stmt)
    (e : Table Word) : (Engine.addMembers name token members e).Still := by
  induction members generalizing e with
  | nil => exact fun _ => rfl
  | cons s rest ih =>
      cases s with
      | func f params body token' =>
          rw [Engine.addMembers]
          exact (makeFunction_still f params body token').bind fun f => ih _
      | _ => exact fun _ => rfl

/-! ## Statements -/

/-- A sequence of statements has come to its end on both sides, or has returned on both. -/
theorem Follows.flow_cases {α β : Type} {f : Option Word → Exec α} {g : Flow → Eval β}
    {Q : α → β → Assertion} (hnormal : Follows K L 1 (f none) (g .normal) Q)
    (hreturned : ∀ w v, Follows K L (word K v w) (f (some w)) (g (.returned v)) Q)
    (a : Option Word) (b : Flow) : Follows K L (Assertion.flow K a b) (f a) (g b) Q := by
  cases a with
  | none =>
      cases b with
      | normal => exact hnormal
      | returned v => exact .learn (fun _ _ _ hp => hp) False.elim
  | some w =>
      cases b with
      | normal => exact .learn (fun _ _ _ hp => hp) False.elim
      | returned v => exact hreturned w v

theorem Follows.repeatWhile {condition : Exec Bool} {condition' : Eval Bool}
    {body : Exec (Option Word)} {body' : Eval Flow}
    (hcondition : Follows K L 1 condition condition' same)
    (hbody : Follows K L 1 body body' (Assertion.flow K)) (n : Nat) :
    Follows K L 1 (Engine.repeatWhile condition body n) (Env.repeatWhile condition' body' n)
      (Assertion.flow K) := by
  induction n with
  | zero => exact .exhausted
  | succ n ih =>
      refine hcondition.bind fun a b => .learn (fun _ _ _ hab => hab) ?_
      rintro rfl
      refine .pre ?_ (entails_one _)
      split
      · exact hbody.bind (Follows.flow_cases ih fun w v => .pure (Entails.refl _))
      · exact .pure (Entails.refl _)

namespace Engine.Mirrors

variable {g : Engine} {env : Env}

theorem holds (h : g.Mirrors K env) (condition : Expr) :
    Follows K L 1 (g.holds L condition) (do return (← env.evalExpr condition).isTrue) same := by
  refine (h.evalExpr condition).bind fun w v => .learn word_shell fun hshell => ?_
  rw [hshell, Value.isTrue_shell]
  exact .pure fun _ _ _ _ => rfl

theorem loopCondition (h : g.Mirrors K env) (condition : Expr) :
    Follows K L 1 (g.loopCondition L condition) (env.loopCondition condition) same := by
  unfold Engine.loopCondition Env.loopCondition
  split
  · exact .pure fun _ _ _ _ => rfl
  · exact h.holds condition

mutual

theorem evalStmt (h : g.Mirrors K env) (s : Stmt) (hs : K.Body s) :
    Follows K L 1 (g.evalStmt L s) (env.evalStmt s) (Assertion.flow K) := by
  match s with
  | .hole =>
      rw [Engine.evalStmt, Env.evalStmt]
      exact .start _ (.pure (Entails.refl _))
  | .expr e _ =>
      rw [Engine.evalStmt, Env.evalStmt]
      exact .start _ ((h.evalExpr e).bind fun _ _ => .pure (entails_one _))
  | .func name params body t =>
      rw [Engine.evalStmt, Env.evalStmt]
      refine .declaration hs rfl (Engine.makeFunction_still name params body t) ?_
        (.pure (Entails.refl _))
      refine (Follows.makeFunction name params body t).conseq (Entails.refl _) fun f f' => ?_
      rintro σ Z S ⟨rfl, id, rfl⟩
      refine fact_mul.mpr ⟨⟨rfl, id, rfl⟩, rfl, fun s => ?_⟩
      exact K.inside hs (by simp [Stmt.blocks, Function.stmts])
  | .classDef name members t =>
      rw [Engine.evalStmt, Env.evalStmt, Env.declareClass, bind_assoc]
      have hname : Entails 1 (table K [(nameKey, .string name)] [(nameKey, .string name)]) :=
        Entails.trans (fun _ _ _ _ => rfl) (table_singleton nameKey)
      have hbodies : ∀ block ∈ members.filterMap Stmt.funcBody?, ∀ s ∈ block, K.Body s :=
        fun block hblock s => K.inside hs hblock
      rw [← bind_assoc (Engine.addMembers _ _ _ _)]
      refine .declaration hs rfl ?_ ?_ (.pure (Entails.refl _))
      · exact (Engine.addMembers_still name t members _).bind fun _ _ => rfl
      · rw [← bind_pure (Env.addMembers _ _ _ _)]
        refine .bind ((Follows.addMembers name t members hbodies).pre hname) fun e fields => ?_
        refine .of_fact fun hadd => .of_yields (Yields.object.conseq (Entails.refl _) fun a => ?_)
        exact fun _ _ _ hword => fact_mul.mpr ⟨⟨rfl, fields, hadd, rfl⟩, hword⟩
  | .ret value _ =>
      rw [Engine.evalStmt, Env.evalStmt]
      exact .start _ ((h.evalExpr value).bind fun _ _ => .pure (Entails.refl _))
  | .branch condition thenBody hasElse elseBody _ =>
      rw [Engine.evalStmt, Env.evalStmt]
      have hthen := h.evalBlock thenBody fun s => K.inside hs (by simp [Stmt.blocks])
      have helse := h.evalBlock elseBody fun s => K.inside hs (by simp [Stmt.blocks])
      rw [Engine.holds, bind_assoc]
      refine .start _ ?_
      refine (h.evalExpr condition).bind fun w v => .learn word_shell fun hshell => ?_
      rw [pure_bind, hshell, Value.isTrue_shell]
      refine .pre ?_ (entails_one _)
      split
      · exact hthen
      · split
        · exact helse
        · exact .pure (Entails.refl _)
  | .whileLoop condition body _ =>
      rw [Engine.evalStmt, Env.evalStmt, h.rounds]
      have hbody := h.evalBlock body fun s => K.inside hs (by simp [Stmt.blocks])
      exact .start _ (.repeatWhile (h.holds condition) hbody _)
  | .forLoop init condition post body t =>
      rw [Engine.evalStmt, Env.evalStmt, h.rounds]
      have hblock : [init] ∈ (Stmt.forLoop init condition post body t).blocks := by
        simp [Stmt.blocks]
      have hinit := h.evalStmt init (K.inside hs hblock List.mem_cons_self)
      have hbody := h.evalBlock body fun s => K.inside hs (by simp [Stmt.blocks])
      refine .start _ (hinit.bind (Follows.flow_cases ?_ fun w v => .pure (Entails.refl _)))
      refine .repeatWhile (h.loopCondition condition) ?_ _
      refine hbody.bind (Follows.flow_cases ?_ fun w v => .pure (Entails.refl _))
      exact (h.evalExpr post).bind fun _ _ => .pure (entails_one _)

theorem evalBlock (h : g.Mirrors K env) (stmts : List Stmt) (hstmts : ∀ s ∈ stmts, K.Body s) :
    Follows K L 1 (g.evalBlock L stmts) (env.evalBlock stmts) (Assertion.flow K) := by
  match stmts with
  | [] =>
      rw [Engine.evalBlock, Env.evalBlock]
      exact .pure (Entails.refl _)
  | s :: rest =>
      rw [Engine.evalBlock, Env.evalBlock]
      obtain ⟨hs, hrest⟩ := List.forall_mem_cons.mp hstmts
      refine (h.evalStmt s hs).bind (Follows.flow_cases ?_ fun w v => .pure (Entails.refl _))
      exact h.evalBlock rest hrest

end

end Engine.Mirrors

/-! ## Rounds -/

theorem Rules.Within.runBody {rules : Rules} (h : rules.Within K) (n level : Nat)
    {stmts : List Stmt} (hstmts : ∀ s ∈ stmts, K.Body s) :
    Follows K level 1 (Engine.runBody rules n level stmts) (Script.runBody rules n stmts)
      (Assertion.flow K) := by
  induction n generalizing level stmts with
  | zero => exact .exhausted
  | succ n ih =>
      have hmirrors : Engine.Mirrors K ⟨rules, n, Engine.runBody rules n⟩
          ⟨rules, n, Script.runBody rules n⟩ := ⟨rfl, rfl, h, fun level _ => ih level⟩
      exact hmirrors.evalBlock stmts hstmts

/-- Evaluation on the memory follows evaluation on values, whatever the number of rounds. -/
theorem Rules.Within.mirrors {rules : Rules} (h : rules.Within K) (rounds : Nat) :
    (rules.engine rounds).Mirrors K (rules.env rounds) :=
  ⟨rfl, rfl, h, fun level _ => h.runBody rounds level⟩

end

end Script
