import Script.Proofs.Layout.Unplaced

/-!
# Evaluation does not look at places

On a machine and a tree without places the evaluator does what it does on the machine and the tree
themselves, up to the places. `Mirrors` says this of one evaluation; like the relation of the same
name for parsers it passes through `>>=`, so each function of the evaluator gets it from the
functions it is made of. Only the place of a fault is left open.
-/

namespace Script

open Evaluation

section

variable {α β : Type}

/-- The second outcome is the first without places, except that its fault may have any place. -/
inductive Outcome.Mirrors (f : α → β) : Outcome α → Outcome β → Prop
  | done (a : α) (m : Machine) : Mirrors f (.done a m) (.done (f a) m.unplaced)
  | fault (cause : Cause) (location location' : Location) (m : Machine) :
    Mirrors f (.fault ⟨cause, location⟩ m) (.fault ⟨cause, location'⟩ m.unplaced)
  | exhausted : Mirrors f .exhausted .exhausted

end

def Flow.unplaced : Flow → Flow
  | .normal => .normal
  | .returned v => .returned v.unplaced

theorem Flow.value_unplaced (flow : Flow) : flow.unplaced.value = flow.value.unplaced := by
  cases flow <;> rfl

namespace Eval

variable {α β γ δ : Type}

/-- The second evaluation does on machines without places what the first does on machines. -/
def Mirrors (f : α → β) (x : Eval α) (y : Eval β) : Prop :=
  ∀ m : Machine, (x m).Mirrors f (y m.unplaced)

/-! ## Rules for all evaluations -/

theorem mirrors_pure {f : α → β} {a : α} {b : β} (h : f a = b) :
    Mirrors f (pure a : Eval α) (pure b) := by
  subst h
  exact fun m => .done a m

theorem Mirrors.bind {f : α → β} {x : Eval α} {y : Eval β} {g : γ → δ} {k : α → Eval γ}
    {l : β → Eval δ} (h : Mirrors f x y) (hk : ∀ a, Mirrors g (k a) (l (f a))) :
    Mirrors g (x >>= k) (y >>= l) := by
  intro m
  have hm := h m
  change (Eval.bind x k m).Mirrors g (Eval.bind y l m.unplaced)
  unfold Eval.bind
  generalize x m = o, y m.unplaced = image at hm
  cases hm with
  | done a m' => exact hk a m'
  | fault cause location location' m' => exact .fault cause location location' m'
  | exhausted => exact .exhausted

theorem Mirrors.map {f : α → β} {x : Eval α} {y : Eval β} {g : γ → δ} {k : α → γ} {l : β → δ}
    (h : Mirrors f x y) (hk : ∀ a, g (k a) = l (f a)) :
    Mirrors g (x >>= fun a => pure (k a)) (y >>= fun b => pure (l b)) :=
  h.bind fun a => mirrors_pure (hk a)

theorem Mirrors.ite {f : α → β} {x x' : Eval α} {y y' : Eval β} {c : Prop} [Decidable c]
    (h : Mirrors f x y) (h' : Mirrors f x' y') :
    Mirrors f (if c then x else x') (if c then y else y') := by
  split
  · exact h
  · exact h'

/-! ## Effects -/

theorem mirrors_raise (f : α → β) (cause : Cause) (location location' : Location) :
    Mirrors f (raise cause location) (raise cause location') :=
  fun m => .fault cause location location' m

theorem mirrors_exhausted (f : α → β) : Mirrors f exhausted exhausted :=
  fun _ => .exhausted

theorem mirrors_lookup (name : Text) :
    Mirrors (Option.map Value.unplaced) (lookup? name) (lookup? name) := by
  intro m
  have hget := Table.get?_mapValues Value.unplaced m.frame name
  change Outcome.Mirrors _ (.done (Table.get? m.frame name) m)
    (.done (Table.get? _ name) m.unplaced)
  rw [Machine.unplaced, hget]
  exact .done _ m

theorem mirrors_declared (name : Text) :
    Mirrors (Option.map Value.unplaced) (declared? name) (declared? name) := by
  intro m
  have hget := Table.get?_mapValues Value.unplaced m.heap name
  change Outcome.Mirrors _ (.done (Table.get? m.heap name) m) (.done (Table.get? _ name) m.unplaced)
  rw [Machine.unplaced, hget]
  exact .done _ m

theorem mirrors_assign (name : Text) (v : Value) :
    Mirrors id (assign name v) (assign name v.unplaced) := by
  intro m
  have hinsert := Table.insert_mapValues Value.unplaced name v m.frame
  have hdone := Outcome.Mirrors.done (f := id) () { m with frame := Table.insert name v m.frame }
  rw [Machine.unplaced, Frame.unplaced, ← hinsert] at hdone
  exact hdone

theorem mirrors_declare (name : Text) (v : Value) :
    Mirrors id (declare name v) (declare name v.unplaced) := by
  intro m
  have hinsert := Table.insert_mapValues Value.unplaced name v m.heap
  have hdone := Outcome.Mirrors.done (f := id) () { m with heap := Table.insert name v m.heap }
  rw [Machine.unplaced, ← hinsert] at hdone
  exact hdone

theorem mirrors_freshBody : Mirrors id freshBody freshBody :=
  fun m => .done (BodyId.declared m.nextBody) { m with nextBody := m.nextBody + 1 }

theorem mirrors_print (text : Text) : Mirrors id (print text) (print text) :=
  fun m => .done () { m with printed := text :: m.printed }

theorem mirrors_depth : Mirrors id depth depth :=
  fun m => .done m.depth m

theorem Mirrors.inFrame {f : α → β} {x : Eval α} {y : Eval β} (h : Mirrors f x y) (frame : Frame) :
    Mirrors (Prod.map f Frame.unplaced) (Evaluation.inFrame frame x)
      (Evaluation.inFrame (Frame.unplaced frame) y) := by
  intro m
  have hm := h { m with frame := frame, depth := m.depth + 1 }
  change (Eval.inFrame frame x m).Mirrors _ (Eval.inFrame (Frame.unplaced frame) y m.unplaced)
  unfold Eval.inFrame
  change Outcome.Mirrors f (x { m with frame := frame, depth := m.depth + 1 })
    (y { m.unplaced with frame := Frame.unplaced frame, depth := m.unplaced.depth + 1 }) at hm
  generalize x { m with frame := frame, depth := m.depth + 1 } = o,
    y { m.unplaced with frame := Frame.unplaced frame, depth := m.unplaced.depth + 1 } = image at hm
  cases hm with
  | done a m' =>
    exact .done (a, m'.frame) { m' with frame := m.frame, depth := m'.depth - 1 }
  | fault cause location location' m' =>
    exact .fault cause location location' { m' with frame := m.frame, depth := m'.depth - 1 }
  | exhausted => exact .exhausted

theorem mirrors_read (name : Text) : Mirrors Value.unplaced (read name) (read name) :=
  (mirrors_lookup name).map fun v => (Value.getD_unplaced v).symm

theorem mirrors_resolve (v : Value) : Mirrors Value.unplaced (resolve v) (resolve v.unplaced) := by
  cases v with
  | nameRef name => exact mirrors_read name
  | _ => exact mirrors_pure rfl

theorem mirrors_ofExcept (f : α → β) (location location' : Location) (r : Except Cause α) :
    Mirrors f (ofExcept location r) (ofExcept location' (r.map f)) := by
  cases r with
  | ok a => exact mirrors_pure rfl
  | error cause => exact mirrors_raise f cause location location'

/-! ## Parts of the evaluator that execute no body -/

theorem mirrors_declaredFunction (name : Text) :
    (Env.declaredFunction name : Eval (Option Function)).Mirrors (Option.map Function.unplaced)
      (Env.declaredFunction name) := by
  refine (mirrors_declared name).bind fun found => ?_
  cases found with
  | none => exact mirrors_pure rfl
  | some v => cases v <;> exact mirrors_pure rfl

theorem mirrors_oneArgument (name : Text) (args : List Value) (token token' : Token) :
    (Env.oneArgument name args token : Eval Value).Mirrors Value.unplaced
      (Env.oneArgument name (args.map Value.unplaced) token') := by
  rcases args with _ | ⟨v, _ | ⟨w, rest⟩⟩
  · exact mirrors_raise _ _ _ _
  · exact mirrors_pure rfl
  · simp only [Env.oneArgument, List.map_cons, List.length_cons, List.length_map]
    exact mirrors_raise _ _ _ _

theorem mirrors_twoArguments (name : Text) (args : List Value) (token token' : Token) :
    (Env.twoArguments name args token : Eval (Value × Value)).Mirrors
      (Prod.map Value.unplaced Value.unplaced)
      (Env.twoArguments name (args.map Value.unplaced) token') := by
  rcases args with _ | ⟨v, _ | ⟨w, _ | ⟨u, rest⟩⟩⟩
  · exact mirrors_raise _ _ _ _
  · exact mirrors_raise _ _ _ _
  · exact mirrors_pure rfl
  · simp only [Env.twoArguments, List.map_cons, List.length_cons, List.length_map]
    exact mirrors_raise _ _ _ _

theorem mirrors_method (receiver : Value) (name : Text) (count : Nat) (token token' : Token) :
    (Env.method receiver name count token : Eval Function).Mirrors Function.unplaced
      (Env.method receiver.unplaced name count token') := by
  cases receiver with
  | object fields =>
    simp only [Value.unplaced_object, Env.method, Table.get?_mapValues, className_unplaced]
    cases Table.get? fields name with
    | none => exact mirrors_raise _ _ _ _
    | some v =>
      cases v with
      | function f =>
        refine Mirrors.ite (mirrors_raise _ _ _ _) ?_
        exact Mirrors.ite (mirrors_pure rfl) (mirrors_raise _ _ _ _)
      | _ => exact mirrors_raise _ _ _ _
  | _ => exact mirrors_raise _ _ _ _

theorem mirrors_template (name : Text) (count : Nat) (token token' : Token) :
    (Env.template name count token : Eval (Table Value × Option Function)).Mirrors
      (Prod.map (Table.mapValues Value.unplaced) (Option.map Function.unplaced))
      (Env.template name count token') := by
  refine (mirrors_declared name).bind fun found => ?_
  cases found with
  | none => exact mirrors_raise _ _ _ _
  | some v =>
    cases v with
    | object fields =>
      simp only [Option.map_some, Value.unplaced_object, Table.get?_mapValues]
      cases Table.get? fields initKey with
      | none => exact mirrors_pure rfl
      | some v =>
        cases v with
        | function f =>
          refine Mirrors.ite (mirrors_raise _ _ _ _) ?_
          exact Mirrors.ite (mirrors_pure rfl) (mirrors_raise _ _ _ _)
        | _ => exact mirrors_pure rfl
    | _ => exact mirrors_raise _ _ _ _

theorem mirrors_store (name : Text) (token token' : Token) (steps : List Step) (new : Value) :
    (Env.store name token steps new : Eval Unit).Mirrors id
      (Env.store name token' (steps.map Step.unplaced) new.unplaced) := by
  refine (mirrors_lookup name).bind fun found => ?_
  cases found with
  | none =>
    rcases steps with _ | ⟨step, rest⟩
    · exact mirrors_raise _ _ _ _
    · cases step <;> exact mirrors_raise _ _ _ _
  | some old =>
    simp only [Option.map_some, Value.replace_unplaced]
    cases Value.replace new steps old with
    | ok v => exact mirrors_assign name v
    | error f => exact mirrors_raise _ _ _ _

theorem mirrors_makeFunction (name : Text) (params : List Text) (body : List Stmt) (token : Token) :
    (Env.makeFunction name params body token : Eval Function).Mirrors Function.unplaced
      (Env.makeFunction name params (Stmt.unplacedAll body) token.unplaced) := by
  simp only [Env.makeFunction, Stmt.copyAll_eq]
  exact mirrors_freshBody.map fun _ => rfl

theorem mirrors_addMembers (className : Text) (token token' : Token) (members : List Stmt)
    (fields : Table Value) :
    (Env.addMembers className token members fields : Eval (Table Value)).Mirrors
      (Table.mapValues Value.unplaced)
      (Env.addMembers className token' (Stmt.unplacedAll members)
        (Table.mapValues Value.unplaced fields)) := by
  induction members generalizing fields with
  | nil => exact mirrors_pure rfl
  | cons s rest ih =>
    cases s with
    | func name params body t =>
      refine (mirrors_makeFunction name params body t).bind fun f => ?_
      have hrest := ih (Table.insert name (.function f) fields)
      rw [← Table.insert_mapValues] at hrest
      exact hrest
    | _ => exact mirrors_raise _ _ _ _

theorem mirrors_declareClass (name : Text) (members : List Stmt) (token : Token) :
    (Env.declareClass name members token : Eval Unit).Mirrors id
      (Env.declareClass name (Stmt.unplacedAll members) token.unplaced) := by
  refine (mirrors_addMembers name token token.unplaced members [(nameKey, .string name)]).bind
    fun fields => ?_
  rw [← Value.unplaced_object]
  exact mirrors_declare name (.object fields)

theorem mirrors_repeatWhile {condition condition' : Eval Bool} {body body' : Eval Flow}
    (hcondition : condition.Mirrors id condition') (hbody : body.Mirrors Flow.unplaced body')
    (n : Nat) :
    (Env.repeatWhile condition body n).Mirrors Flow.unplaced
      (Env.repeatWhile condition' body' n) := by
  induction n with
  | zero => exact mirrors_exhausted _
  | succ n ih =>
    refine hcondition.bind fun again => Mirrors.ite (hbody.bind fun flow => ?_) (mirrors_pure rfl)
    cases flow with
    | normal => exact ih
    | returned v => exact mirrors_pure rfl

end Eval

def Env.Callee.unplaced : Env.Callee → Env.Callee
  | .native n => .native n.unplaced
  | .declared f => .declared f.unplaced

/-- The second environment is the first without places. -/
structure Env.Mirrors (env env' : Env) : Prop where
  rules : env'.rules = env.rules.unplaced
  rounds : env'.rounds = env.rounds
  run (body : List Stmt) : (env.run body).Mirrors Flow.unplaced (env'.run (Stmt.unplacedAll body))

namespace Env.Mirrors

open Eval

variable {env env' : Env}

/-! ## Calls -/

theorem limit (h : env.Mirrors env') : env'.rules.limit = env.rules.limit := by
  rw [h.rules]
  rfl

theorem execute (h : env.Mirrors env') (f : Function) (frame : Frame) (token token' : Token) :
    (env.execute f frame token).Mirrors (Prod.map Value.unplaced Frame.unplaced)
      (env'.execute f.unplaced (Frame.unplaced frame) token') := by
  unfold Env.execute
  rw [h.limit, f.stmts_unplaced]
  refine mirrors_depth.bind fun d => Mirrors.ite (mirrors_raise _ _ _ _) ?_
  refine ((h.run f.stmts).inFrame frame).bind fun r => mirrors_pure ?_
  obtain ⟨flow, final⟩ := r
  exact Prod.ext flow.value_unplaced.symm rfl

theorem call (h : env.Mirrors env') (f : Function) (args : List Value) (token token' : Token) :
    (env.call f args token).Mirrors Value.unplaced
      (env'.call f.unplaced (args.map Value.unplaced) token') := by
  have hexecute := h.execute f (Frame.bind [] f.params args) token token'
  rw [← Frame.bind_unplaced] at hexecute
  exact hexecute.bind fun _ => mirrors_pure rfl

theorem invoke (h : env.Mirrors env') (f : Option Function) (args : List Value)
    (token token' : Token) :
    (env.invoke f args token).Mirrors Value.unplaced
      (env'.invoke (f.map Function.unplaced) (args.map Value.unplaced) token') := by
  cases f with
  | none => exact mirrors_raise _ _ _ _
  | some f =>
    simp only [Env.invoke, Option.map_some, List.length_map]
    exact Mirrors.ite (h.call f args token token') (mirrors_raise _ _ _ _)

/-! ## Texts of values -/

mutual

theorem displayWith (h : env.Mirrors env') {again again' : Value → Eval Text}
    (hagain : ∀ v, (again v).Mirrors id (again' v.unplaced)) (standing : Standing) (v : Value) :
    (env.displayWith again standing v).Mirrors id
      (env'.displayWith again' standing v.unplaced) := by
  match v with
  | .null | .number _ | .string _ | .boolean _ | .nameRef _ | .function _ =>
    exact mirrors_pure rfl
  | .array items =>
    simp only [Value.unplaced, Env.displayWith]
    exact (h.displayItems hagain items).map fun _ => rfl
  | .object fields =>
    have hget : Table.get? (Value.unplacedFields fields) displayKey =
        (Table.get? fields displayKey).map Value.unplaced := by
      rw [Value.unplacedFields_eq, Table.get?_mapValues]
    have hplain := (h.displayFields hagain fields).map (g := id) (k := objectText) fun _ => rfl
    simp only [Value.unplaced, Env.displayWith, hget]
    cases Table.get? fields displayKey with
    | none => exact hplain
    | some method =>
      cases method with
      | function f =>
        refine (h.execute f [(selfName, .object fields)] f.token f.token.unplaced).bind fun r => ?_
        obtain ⟨result, final⟩ := r
        cases result with
        | string s => exact mirrors_pure rfl
        | _ => exact hagain _
      | _ => exact hplain

theorem displayItems (h : env.Mirrors env') {again again' : Value → Eval Text}
    (hagain : ∀ v, (again v).Mirrors id (again' v.unplaced)) (items : List Value) :
    (env.displayItems again items).Mirrors id
      (env'.displayItems again' (Value.unplacedItems items)) := by
  match items with
  | [] => exact mirrors_pure rfl
  | item :: rest =>
    refine (h.displayWith hagain .nested item).bind fun text => ?_
    exact (h.displayItems hagain rest).map fun _ => rfl

theorem displayFields (h : env.Mirrors env') {again again' : Value → Eval Text}
    (hagain : ∀ v, (again v).Mirrors id (again' v.unplaced)) (fields : List (Text × Value)) :
    (env.displayFields again fields).Mirrors id
      (env'.displayFields again' (Value.unplacedFields fields)) := by
  match fields with
  | [] => exact mirrors_pure rfl
  | (key, v) :: rest =>
    refine (h.displayWith hagain .nested v).bind fun text => ?_
    exact (h.displayFields hagain rest).map fun _ => rfl

end

theorem displayWithin (h : env.Mirrors env') (n : Nat) (v : Value) :
    (env.displayWithin n v).Mirrors id (env'.displayWithin n v.unplaced) := by
  induction n generalizing v with
  | zero => exact mirrors_exhausted id
  | succ n ih => exact h.displayWith ih .alone v

theorem display (h : env.Mirrors env') (v : Value) :
    (env.display v).Mirrors id (env'.display v.unplaced) := by
  unfold Env.display
  rw [h.rounds]
  exact h.displayWithin env.rounds v

theorem displayAll (h : env.Mirrors env') (vs : List Value) :
    (env.displayAll vs).Mirrors id (env'.displayAll (vs.map Value.unplaced)) := by
  induction vs with
  | nil => exact mirrors_pure rfl
  | cons v rest ih => exact (h.display v).bind fun text => ih.map fun _ => rfl

/-! ## Built-in functions and operators -/

theorem applyNative (h : env.Mirrors env') (native : Native) (args : List Value)
    (token token' : Token) :
    (env.applyNative native args token).Mirrors Value.unplaced
      (env'.applyNative native.unplaced (args.map Value.unplaced) token') := by
  cases native with
  | print => exact (h.displayAll args).bind fun texts => (mirrors_print _).map fun _ => rfl
  | len =>
    refine (mirrors_oneArgument _ args token token').bind fun v => ?_
    cases v with
    | array items =>
      simp only [Value.unplaced_array, List.length_map]
      exact mirrors_pure rfl
    | string s => exact mirrors_pure rfl
    | _ => exact mirrors_raise _ _ _ _
  | push =>
    refine (mirrors_twoArguments _ args token token').bind fun r => ?_
    obtain ⟨v, w⟩ := r
    cases v with
    | array items =>
      simp only [Prod.map, Value.unplaced_array]
      refine mirrors_pure ?_
      rw [Value.unplaced_array, List.map_append, List.map_cons, List.map_nil]
    | _ => exact mirrors_raise _ _ _ _
  | str =>
    refine (mirrors_oneArgument _ args token token').bind fun v => ?_
    exact (h.display v).map fun _ => rfl
  | type =>
    refine (mirrors_oneArgument _ args token token').map fun v => ?_
    rw [v.kind_unplaced]
    rfl
  | constant v => exact mirrors_pure rfl
  | gather => exact mirrors_pure (Value.unplaced_array args)
  | forward target =>
    exact (mirrors_declaredFunction target).bind fun f => h.invoke f args token token'

theorem arithmetic (h : env.Mirrors env') (op : Number → Number → Number) (left right : Value) :
    (env.arithmetic op left right).Mirrors Value.unplaced
      (env'.arithmetic op left.unplaced right.unplaced) := by
  have hnumber : (Value.number (op left.asNumber right.asNumber)).unplaced =
      .number (op left.unplaced.asNumber right.unplaced.asNumber) := by
    rw [left.asNumber_unplaced, right.asNumber_unplaced]
    rfl
  cases left with
  | string s => exact (h.display right).map fun _ => rfl
  | _ => exact mirrors_pure hnumber

theorem applyBinary (h : env.Mirrors env') (op : BinaryOp) (left right : Value)
    (token token' : Token) :
    (env.applyBinary op left right token).Mirrors Value.unplaced
      (env'.applyBinary op left.unplaced right.unplaced token') := by
  cases op with
  | add | subtract | multiply | divide => exact h.arithmetic _ left right
  | equal | notEqual =>
    simp only [Env.applyBinary, BinaryOp.arithmetic?, left.equal_unplaced right]
    exact mirrors_pure rfl
  | less | lessEqual | greater | greaterEqual =>
    simp only [Env.applyBinary, BinaryOp.arithmetic?, BinaryOp.orders?, reduceCtorEq, if_false,
      left.compare_unplaced right]
    cases left.compare? right with
    | none => exact mirrors_pure rfl
    | some order => exact mirrors_pure rfl

/-! ## What is called -/

theorem callee (h : env.Mirrors env') (name : Text) (count : Nat) (token token' : Token) :
    (env.callee name count token).Mirrors Env.Callee.unplaced
      (env'.callee name count token') := by
  have hnative : Table.get? env'.rules.natives name =
      (Table.get? env.rules.natives name).map Native.unplaced := by
    rw [h.rules]
    exact Table.get?_mapValues _ _ _
  unfold Env.callee
  rw [hnative]
  cases Table.get? env.rules.natives name with
  | some n => exact mirrors_pure rfl
  | none =>
    refine (mirrors_declared name).bind fun found => ?_
    cases found with
    | none => exact mirrors_raise _ _ _ _
    | some v =>
      cases v with
      | function f => exact Mirrors.ite (mirrors_pure rfl) (mirrors_raise _ _ _ _)
      | _ => exact mirrors_raise _ _ _ _

theorem enter (h : env.Mirrors env') (callee : Callee) (args : List Value) (token token' : Token) :
    (env.enter callee args token).Mirrors Value.unplaced
      (env'.enter callee.unplaced (args.map Value.unplaced) token') := by
  cases callee with
  | native n => exact h.applyNative n args token token'
  | declared f => exact h.call f args token token'

theorem instantiate (h : env.Mirrors env') (fields : Table Value) (init : Function)
    (args : List Value) (token token' : Token) :
    (env.instantiate fields init args token).Mirrors Value.unplaced
      (env'.instantiate (Table.mapValues Value.unplaced fields) init.unplaced
        (args.map Value.unplaced) token') := by
  have hexecute := h.execute init (Env.receiverFrame init (.object fields) args) token token'
  rw [← Env.receiverFrame_unplaced, Value.unplaced_object] at hexecute
  refine hexecute.map fun r => ?_
  rw [Prod.map, Frame.unplaced, Table.get?_mapValues, Value.getD_unplaced]

/-! ## Expressions -/

mutual

theorem evalExpr (h : env.Mirrors env') (e : Expr) :
    (env.evalExpr e).Mirrors Value.unplaced (env'.evalExpr e.unplaced) := by
  match e with
  | .hole | .number .. | .string .. | .boolean .. | .null .. => exact mirrors_pure rfl
  | .ident name t => exact mirrors_read name
  | .negate operand t =>
    refine (h.evalExpr operand).bind fun v => (mirrors_resolve v).map fun w => ?_
    rw [w.asNumber_unplaced]
    rfl
  | .binary op left right t =>
    refine (h.evalExpr left).bind fun v => (mirrors_resolve v).bind fun l => ?_
    refine (h.evalExpr right).bind fun w => (mirrors_resolve w).bind fun r => ?_
    exact h.applyBinary op l r t t.unplaced
  | .assign target value t =>
    have hsteps := h.evalSteps target
    simp only [Expr.mapTokens, Env.evalExpr, target.place_unplaced t, target.text_unplaced]
    refine (h.evalExpr value).bind fun new => ?_
    cases target.place t with
    | whole name => exact (mirrors_assign name new).map fun _ => rfl
    | inside name rootToken =>
      refine hsteps.bind fun steps => ?_
      exact (mirrors_store name rootToken rootToken.unplaced steps new).map fun _ => rfl
    | nowhere location => exact mirrors_raise _ _ _ _
  | .call callee args t =>
    simp only [Expr.mapTokens, Env.evalExpr, callee.name?_unplaced, callee.text_unplaced,
      Expr.length_mapTokensAll]
    cases callee.name? with
    | some name =>
      refine (h.callee name args.length t t.unplaced).bind fun callee => ?_
      exact (h.evalAll args).bind fun values => h.enter callee values t t.unplaced
    | none => exact mirrors_raise _ _ _ _
  | .method object name args t =>
    simp only [Expr.mapTokens, Env.evalExpr, Expr.length_mapTokensAll]
    refine (h.evalExpr object).bind fun v => (mirrors_resolve v).bind fun receiver => ?_
    refine (mirrors_method receiver name args.length t t.unplaced).bind fun f => ?_
    refine (h.evalAll args).bind fun values => ?_
    rw [Env.receiverFrame_unplaced]
    exact (h.execute f _ t t.unplaced).map fun _ => rfl
  | .member object property t =>
    have hread (v : Value) : (ofExcept t.location (v.getProperty property) : Eval Value).Mirrors
        Value.unplaced (ofExcept t.unplaced.location (v.unplaced.getProperty property)) := by
      rw [v.getProperty_unplaced]
      exact mirrors_ofExcept _ _ _ _
    simp only [Expr.mapTokens, Env.evalExpr, object.name?_unplaced]
    cases object.name? with
    | some name => exact (mirrors_read name).bind hread
    | none => exact (h.evalExpr object).bind hread
  | .index object position t =>
    have hread (v i : Value) : (ofExcept t.location (v.getItem i) : Eval Value).Mirrors
        Value.unplaced (ofExcept t.unplaced.location (v.unplaced.getItem i.unplaced)) := by
      rw [v.getItem_unplaced]
      exact mirrors_ofExcept _ _ _ _
    have hposition := h.evalExpr position
    simp only [Expr.mapTokens, Env.evalExpr, object.name?_unplaced]
    cases object.name? with
    | some name =>
      refine hposition.bind fun v => (mirrors_resolve v).bind fun i => ?_
      exact (mirrors_read name).bind fun v => hread v i
    | none =>
      refine (h.evalExpr object).bind fun v => ?_
      exact hposition.bind fun w => (mirrors_resolve w).bind fun i => hread v i
  | .array items t => exact (h.evalAll items).map Value.unplaced_array
  | .construct className args t =>
    simp only [Expr.mapTokens, Env.evalExpr, Expr.length_mapTokensAll]
    refine (mirrors_template className args.length t t.unplaced).bind fun r => ?_
    obtain ⟨fields, init⟩ := r
    cases init with
    | none => exact mirrors_pure (Value.unplaced_object fields)
    | some init =>
      exact (h.evalAll args).bind fun values => h.instantiate fields init values t t.unplaced

theorem evalAll (h : env.Mirrors env') (es : List Expr) :
    (env.evalAll es).Mirrors (List.map Value.unplaced) (env'.evalAll (Expr.unplacedAll es)) := by
  match es with
  | [] => exact mirrors_pure rfl
  | e :: rest =>
    refine (h.evalExpr e).bind fun v => (mirrors_resolve v).bind fun w => ?_
    exact (h.evalAll rest).map fun _ => rfl

theorem evalSteps (h : env.Mirrors env') (e : Expr) :
    (env.evalSteps e).Mirrors (List.map Step.unplaced) (env'.evalSteps e.unplaced) := by
  match e with
  | .index object position t =>
    refine (h.evalSteps object).bind fun steps => ?_
    refine (h.evalExpr position).bind fun v => (mirrors_resolve v).map fun i => ?_
    rw [List.map_append]
    rfl
  | .member object property t =>
    refine (h.evalSteps object).map fun steps => ?_
    rw [List.map_append]
    rfl
  | .hole | .number .. | .string .. | .boolean .. | .null .. | .ident .. | .negate .. | .binary ..
  | .assign .. | .call .. | .method .. | .array .. | .construct .. => exact mirrors_pure rfl

end

/-! ## Statements -/

theorem loopCondition (h : env.Mirrors env') (condition : Expr) :
    (env.loopCondition condition).Mirrors id (env'.loopCondition condition.unplaced) := by
  unfold Env.loopCondition
  rw [condition.isHole_unplaced]
  refine Mirrors.ite (mirrors_pure rfl) ((h.evalExpr condition).map fun v => ?_)
  exact v.isTrue_unplaced.symm

mutual

theorem evalStmt (h : env.Mirrors env') (s : Stmt) :
    (env.evalStmt s).Mirrors Flow.unplaced (env'.evalStmt s.unplaced) := by
  match s with
  | .hole => exact mirrors_pure rfl
  | .expr e t => exact (h.evalExpr e).map fun _ => rfl
  | .func name params body t =>
    refine (mirrors_makeFunction name params body t).bind fun f => ?_
    exact (mirrors_declare name (.function f)).map fun _ => rfl
  | .classDef name members t => exact (mirrors_declareClass name members t).map fun _ => rfl
  | .ret value t => exact (h.evalExpr value).map fun _ => rfl
  | .branch condition thenBody hasElse elseBody t =>
    refine (h.evalExpr condition).bind fun v => ?_
    rw [v.isTrue_unplaced]
    refine Mirrors.ite (h.evalBlock thenBody) ?_
    exact Mirrors.ite (h.evalBlock elseBody) (mirrors_pure rfl)
  | .whileLoop condition body t =>
    simp only [Stmt.mapTokens, Env.evalStmt, h.rounds]
    refine mirrors_repeatWhile ((h.evalExpr condition).map fun v => ?_) (h.evalBlock body) _
    exact v.isTrue_unplaced.symm
  | .forLoop init condition post body t =>
    have hbody := h.evalBlock body
    simp only [Stmt.mapTokens, Env.evalStmt, h.rounds]
    refine (h.evalStmt init).bind fun flow => ?_
    cases flow with
    | returned v => exact mirrors_pure rfl
    | normal =>
      refine mirrors_repeatWhile (h.loopCondition condition) (hbody.bind fun flow => ?_) _
      cases flow with
      | returned v => exact mirrors_pure rfl
      | normal => exact (h.evalExpr post).map fun _ => rfl

theorem evalBlock (h : env.Mirrors env') (body : List Stmt) :
    (env.evalBlock body).Mirrors Flow.unplaced (env'.evalBlock (Stmt.unplacedAll body)) := by
  match body with
  | [] => exact mirrors_pure rfl
  | s :: rest =>
    refine (h.evalStmt s).bind fun flow => ?_
    cases flow with
    | normal => exact h.evalBlock rest
    | returned v => exact mirrors_pure rfl

end

/-! ## Programs -/

theorem evaluate (h : env.Mirrors env') (program : Program) :
    (env.evaluate program).Mirrors id (env'.evaluate program.unplaced) :=
  (h.evalBlock program.body).map fun _ => rfl

theorem callMain (h : env.Mirrors env') (args : Value) :
    (env.callMain args).Mirrors Value.unplaced (env'.callMain args.unplaced) := by
  refine (mirrors_declared Env.mainName).bind fun found => ?_
  cases found with
  | none => exact mirrors_raise _ _ _ _
  | some v =>
    cases v with
    | function f => exact Mirrors.ite (h.call f [args] f.token _) (mirrors_raise _ _ _ _)
    | _ => exact mirrors_raise _ _ _ _

theorem runMain (h : env.Mirrors env') (program : Program) (args : List Text) :
    (env.runMain program args).Mirrors Value.unplaced (env'.runMain program.unplaced args) := by
  have hargs : (Value.array (args.map .string)).unplaced = .array (args.map .string) := by
    rw [Value.unplaced_array, List.map_map]
    rfl
  have hmain := h.callMain (.array (args.map .string))
  rw [hargs] at hmain
  exact (h.evaluate program).bind fun _ => hmain

end Env.Mirrors

end Script
