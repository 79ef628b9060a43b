import Script.Session
import Script.Proofs.Parts
import Script.Proofs.Table

/-! # Simulations between evaluations

The evaluator has one definition for every kind of evaluation. A simulation relates evaluations of
two kinds and is respected by all effects; the modules after this one show that the evaluator
respects it too. Facts about single runs are simulations that do not look at their second side. -/

namespace Script

open Evaluation

/-- What an evaluation may come across, and what it may do. -/
structure Terms where
  /-- The values that come up. -/
  Good : Value → Prop
  /-- The variables that may be set as a whole. -/
  Assignable : Text → Prop
  /-- The variables of which a part may be replaced. -/
  Updatable : Text → Prop
  /-- The properties that may be set. -/
  Settable : Text → Prop
  Declarable : Text → Value → Prop
  Raisable : Cause → Location → Prop
  /-- Whether there may be loops. -/
  Loops : Prop

/-- The terms that allow everything. -/
def Terms.free : Terms where
  Good _ := True
  Assignable _ := True
  Updatable _ := True
  Settable _ := True
  Declarable _ _ := True
  Raisable _ _ := True
  Loops := True

/-- The causes that are about the shape of the tree, not about values. -/
@[simp] def Cause.AboutShape : Cause → Prop
  | .invalidTarget _ | .notCallable _ | .classMember _ | .unsupportedOperator _ => True
  | _ => False

theorem Cause.aboutShape_iff (cause : Cause) :
    cause.AboutShape ↔ cause.category = "UnexpectedNodeError" ∨
      ∃ op, cause = .unsupportedOperator op := by
  cases cause <;> simp [Cause.category]

/-- All causes that are not about the shape of the tree may be raised at a token. -/
def Terms.At (T : Terms) (token : Token) : Prop :=
  ∀ cause, ¬ cause.AboutShape → T.Raisable cause token.location

/-- The causes that are about the function that a program starts with. -/
@[simp] def Cause.AboutMain : Cause → Prop
  | .undefinedMain => True
  | .notFunction name kind => name = Env.mainName ∧ kind ≠ .function
  | _ => False

/-- What may be raised at the start of a program. -/
def Terms.AtEntry (T : Terms) : Prop :=
  ∀ cause, cause.AboutMain → T.Raisable cause Env.entry

/-- The values that the evaluator builds from good ones are good. -/
structure Terms.Closed (T : Terms) : Prop where
  null : T.Good .null
  number (x : Number) : T.Good (.number x)
  string (s : Text) : T.Good (.string s)
  boolean (b : Bool) : T.Good (.boolean b)
  array (items : List Value) : T.Good (.array items) ↔ ∀ v ∈ items, T.Good v
  fields {fields : Table Value} : T.Good (.object fields) → Table.Each T.Good fields
  insert {fields : Table Value} {key : Text} {v : Value} :
    T.Good (.object fields) → T.Settable key → T.Good v →
      T.Good (.object (Table.insert key v fields))
  function {f : Function} : T.Good (.function f) → T.At f.token

theorem Terms.closed_free : Terms.free.Closed := by
  constructor <;> simp [Terms.free, Table.Each, Terms.At]

/-! ## Trees -/

/-- What a single node of an expression asks for. -/
def Expr.Fit (T : Terms) : Expr → Prop
  | .hole => True
  | .assign target _ t => T.At t ∧
    match target.place t with
    | .whole name => T.Assignable name
    | .inside name _ => T.Updatable name ∧ ∀ key ∈ target.chainKeys, T.Settable key
    | .nowhere location => T.Raisable (.invalidTarget target.text) location
  | .call callee _ t => T.At t ∧
    (callee.name? = none → T.Raisable (.notCallable callee.text) t.location)
  | e => T.At e.token

def Expr.Fits (T : Terms) (e : Expr) : Prop :=
  ∀ p ∈ e.parts, p.Fit T

/-- The tables that the members of a class can lead to from a given one, whatever marks their
bodies get. -/
def Stmt.AddTo : List Stmt → Table Value → Table Value → Prop
  | [], fields, final => final = fields
  | .func name params body t :: rest, fields, final => ∃ id,
    Stmt.AddTo rest
      (Table.insert name (.function ⟨name, params, some ⟨id, name, params, body⟩, t⟩) fields) final
  | _ :: _, _, _ => False

/-- The place where a class is refused because of a member. -/
def Stmt.memberLocation (token : Token) : Stmt → Location
  | .hole => token.location
  | s => s.token.location

def Stmt.isFunc : Stmt → Bool
  | .func .. => true
  | _ => false

/-- What a single statement asks for. -/
def Stmt.Fit (T : Terms) (s : Stmt) : Prop :=
  (∀ e ∈ s.exprs, e.Fits T) ∧
    match s with
    | .func name params body t =>
      ∀ id, T.Declarable name (.function ⟨name, params, some ⟨id, name, params, body⟩, t⟩)
    | .classDef name members t =>
      (∀ fields, Stmt.AddTo members [(nameKey, .string name)] fields →
        T.Declarable name (.object fields)) ∧
      ∀ s ∈ members, s.isFunc = false → T.Raisable (.classMember name) (s.memberLocation t)
    | .whileLoop .. | .forLoop .. => T.Loops
    | _ => True

def Stmt.Fits (T : Terms) (s : Stmt) : Prop :=
  ∀ p ∈ s.parts, p.Fit T

/-- Where everything may be raised, only assignments ask for something. -/
theorem Expr.fits_of_assign {T : Terms} {e : Expr}
    (hraise : ∀ cause location, T.Raisable cause location)
    (hwhole : ∀ target value t name, .assign target value t ∈ e.parts →
      target.place t = .whole name → T.Assignable name)
    (hinside : ∀ target value t name token, .assign target value t ∈ e.parts →
      target.place t = .inside name token →
        T.Updatable name ∧ ∀ key ∈ target.chainKeys, T.Settable key) : e.Fits T := by
  have hat : ∀ token, T.At token := fun token cause _ => hraise cause token.location
  intro p hp
  cases p with
  | hole => trivial
  | assign target value t =>
      refine ⟨hat t, ?_⟩
      cases hplace : target.place t with
      | whole name => exact hwhole target value t name hp hplace
      | inside name token => exact hinside target value t name token hp hplace
      | nowhere location => exact hraise _ location
  | call callee args t => exact ⟨hat t, fun _ => hraise _ _⟩
  | _ => exact hat _

theorem Expr.fits_free (e : Expr) : e.Fits Terms.free :=
  Expr.fits_of_assign (fun _ _ => trivial) (fun _ _ _ _ _ _ => trivial)
    fun _ _ _ _ _ _ _ => ⟨trivial, fun _ _ => trivial⟩

/-- Where everything may be declared and repeated too, statements ask for no more than the
expressions in them. -/
theorem Stmt.fits_of_exprs {T : Terms} {s : Stmt}
    (hraise : ∀ cause location, T.Raisable cause location)
    (hdeclare : ∀ name v, T.Declarable name v) (hloops : T.Loops)
    (h : ∀ p ∈ s.parts, ∀ e ∈ p.exprs, e.Fits T) : s.Fits T := by
  intro p hp
  refine ⟨h p hp, ?_⟩
  cases p with
  | func => exact fun _ => hdeclare _ _
  | classDef => exact ⟨fun _ _ => hdeclare _ _, fun _ _ _ => hraise _ _⟩
  | whileLoop | forLoop => exact hloops
  | _ => trivial

theorem Stmt.fits_free (s : Stmt) : s.Fits Terms.free :=
  Stmt.fits_of_exprs (fun _ _ => trivial) (fun _ _ => trivial) trivial fun _ _ e _ => e.fits_free

/-! ## Simulations -/

/-- How a sequence of statements ends, with a good value if it returns. -/
def Flow.Good (T : Terms) : Flow → Prop
  | .normal => True
  | .returned v => T.Good v

/-- A relation between evaluations of two kinds that single effects respect. `Holds Q x y` relates
`x` to `y` and promises `Q` of their results. -/
structure Effects (M N : Type → Type) [Evaluation M] [Evaluation N] extends Terms where
  closed : toTerms.Closed
  Holds {α : Type} : (α → Prop) → M α → N α → Prop
  mono {α : Type} {P Q : α → Prop} {x : M α} {y : N α} :
    Holds P x y → (∀ a, P a → Q a) → Holds Q x y
  pure {α : Type} {Q : α → Prop} {a : α} : Q a → Holds Q (Pure.pure a) (Pure.pure a)
  bind {α β : Type} {P : α → Prop} {Q : β → Prop} {x : M α} {y : N α} {f : α → M β} {g : α → N β} :
    Holds P x y → (∀ a, P a → Holds Q (f a) (g a)) → Holds Q (x >>= f) (y >>= g)
  raise {α : Type} {Q : α → Prop} {cause : Cause} {location : Location} :
    Raisable cause location → Holds Q (raise cause location) (raise cause location)
  lookup? (name : Text) :
    Holds (fun found => ∀ v, found = some v → Good v) (lookup? name) (lookup? name)
  assign {name : Text} {v : Value} :
    Assignable name → Good v → Holds (fun _ => True) (assign name v) (assign name v)
  declared? (name : Text) :
    Holds (fun found => ∀ v, found = some v → Good v) (declared? name) (declared? name)
  declare {name : Text} {v : Value} :
    Declarable name v → Holds (fun _ => True) (declare name v) (declare name v)
  freshBody : Holds (fun _ => True) freshBody freshBody
  print (text : Text) : Holds (fun _ => True) (print text) (print text)

/-- The steps of a path may be taken and its properties may be set. -/
def Terms.Passable (T : Terms) (steps : List Step) : Prop :=
  ∀ step ∈ steps, T.At step.token ∧ ∀ key t, step = .property key t → T.Settable key

/-- A relation between evaluations of two kinds that all effects respect. -/
structure Simulation (M N : Type → Type) [Evaluation M] [Evaluation N] extends Effects M N where
  update {name : Text} {token : Token} {steps : List Step} {v : Value} :
    Updatable name → steps ≠ [] → toTerms.Passable steps → Good v → toTerms.At token →
      Holds (fun _ => True) (Env.store name token steps v) (Env.store name token steps v)

/-! ## Replacing a part of a value -/

theorem Value.position_category {precision : Precision} {v : Value} {c : Cause}
    (h : v.position precision = .error c) : c.category = "IndexError" := by
  unfold Value.position at h
  split at h
  · split_ifs at h
    · cases h; rfl
    · dsimp only at h
      split_ifs at h <;> cases h <;> rfl
  · cases h; rfl

theorem Value.item_category {precision : Precision} {v index : Value} {c : Cause}
    (h : v.item precision index = .error c) : c.category = "IndexError" := by
  unfold Value.item at h
  split at h
  · cases hi : index.position precision with
    | error e =>
        simp only [hi, bind, Except.bind] at h
        cases h
        exact Value.position_category hi
    | ok i =>
        simp only [hi, bind, Except.bind] at h
        split at h
        · cases h
        · cases h; rfl
  · cases h; rfl

theorem Value.item_plain {precision : Precision} {v index : Value} {c : Cause}
    (h : v.item precision index = .error c) : ¬ c.AboutShape := by
  intro hshape
  have hcategory := Value.item_category h
  cases c <;> simp [Cause.category] at hshape hcategory

theorem Value.item_ok {precision : Precision} {v index : Value} {r : List Value × Nat × Value}
    (h : v.item precision index = .ok r) :
    v = .array r.1 ∧ index.position precision = .ok r.2.1 ∧ r.1[r.2.1]? = some r.2.2 := by
  unfold Value.item at h
  split at h
  · cases hi : index.position precision with
    | error e => simp [hi, bind, Except.bind] at h
    | ok i =>
        simp only [hi, bind, Except.bind] at h
        split at h
        · rename_i item hitem
          cases h
          exact ⟨rfl, rfl, hitem⟩
        · cases h
  · cases h

theorem Value.ownFields_ok {v : Value} {property : Text} {last : Bool} {fields : Table Value}
    (h : v.ownFields property last = .ok fields) : v = .object fields := by
  unfold Value.ownFields at h
  split at h
  · split_ifs at h
    cases h
    rfl
  · cases h

theorem Value.ownFields_category {v : Value} {property : Text} {last : Bool} {c : Cause}
    (h : v.ownFields property last = .error c) : c.category ∈ ["TypeError", "PropertyError"] := by
  unfold Value.ownFields at h
  split at h
  · split_ifs at h
    cases h; simp [Cause.category]
  · split_ifs at h <;> cases h <;> simp [Cause.category]

theorem Value.ownFields_plain {v : Value} {property : Text} {last : Bool} {c : Cause}
    (h : v.ownFields property last = .error c) : ¬ c.AboutShape := by
  unfold Value.ownFields at h
  split at h
  · split_ifs at h
    cases h
    exact id
  · split_ifs at h <;> cases h <;> exact id

/-- Replacing a part keeps values good, and fails only at a step and for a reason that is not
about the shape of the tree. -/
theorem Terms.Closed.replace {T : Terms} (hT : T.Closed) {new : Value} (hnew : T.Good new)
    (steps : List Step) (hsteps : T.Passable steps) (old : Value) (hold : T.Good old) :
    (∀ v, Value.replace new steps old = .ok v → T.Good v) ∧
      ∀ f, Value.replace new steps old = .error f → T.Raisable f.cause f.location := by
  induction steps generalizing old with
  | nil => simpa [Value.replace] using hnew
  | cons step rest ih =>
      obtain ⟨hat, hkey⟩ := hsteps step (by simp)
      have hrest : T.Passable rest := fun s hs => hsteps s (List.mem_cons_of_mem _ hs)
      cases step with
      | index position token =>
          simp only [Value.replace, Value.atStep]
          cases hitem : old.item .integral position with
          | error c =>
              have hraise : T.Raisable c token.location := hat c (Value.item_plain hitem)
              simpa [Except.mapError, bind, Except.bind, Step.token] using hraise
          | ok r =>
              obtain ⟨items, i, item⟩ := r
              obtain ⟨rfl, -, hget⟩ := Value.item_ok hitem
              have hitems := (hT.array items).mp hold
              obtain ⟨hok, herror⟩ := ih hrest item (hitems item (List.mem_of_getElem? hget))
              cases hpart : Value.replace new rest item with
              | error f => simpa [Except.mapError, bind, Except.bind, hpart] using herror f hpart
              | ok part =>
                  simp only [Except.mapError, bind, Except.bind, pure, Except.pure, hpart,
                    Except.ok.injEq, forall_eq', reduceCtorEq, false_implies, implies_true,
                    and_true]
                  rw [hT.array]
                  intro v hv
                  rcases List.mem_or_eq_of_mem_set hv with hv | rfl
                  · exact hitems v hv
                  · exact hok v hpart
      | property name token =>
          simp only [Value.replace, Value.atStep]
          cases hfields : old.ownFields name rest.isEmpty with
          | error c =>
              have hraise : T.Raisable c token.location := hat c (Value.ownFields_plain hfields)
              simpa [Except.mapError, bind, Except.bind, Step.token] using hraise
          | ok fields =>
              obtain rfl := Value.ownFields_ok hfields
              have hinner : T.Good ((Table.get? fields name).getD .null) := by
                cases hget : Table.get? fields name with
                | none => exact hT.null
                | some v => exact (hT.fields hold).get? hget
              obtain ⟨hok, herror⟩ := ih hrest _ hinner
              cases hpart : Value.replace new rest ((Table.get? fields name).getD .null) with
              | error f => simpa [Except.mapError, bind, Except.bind, hpart] using herror f hpart
              | ok part =>
                  simpa [Except.mapError, bind, Except.bind, hpart, pure, Except.pure] using
                    hT.insert hold (hkey name token rfl) (hok part hpart)

/-- Where every variable that may be updated may be assigned, updates need no law of their own. -/
theorem Effects.update {M N : Type → Type} [Evaluation M] [Evaluation N] (E : Effects M N)
    (hassign : ∀ name, E.Updatable name → E.Assignable name)
    {name : Text} {token : Token} {steps : List Step} {v : Value}
    (hname : E.Updatable name) (hne : steps ≠ []) (hsteps : E.Passable steps) (hv : E.Good v)
    (hat : E.At token) :
    E.Holds (fun _ => True) (Env.store name token steps v) (Env.store name token steps v) := by
  refine E.bind (E.lookup? name) fun found hfound => ?_
  cases found with
  | none =>
      cases steps with
      | nil => exact absurd rfl hne
      | cons step rest =>
          cases step with
          | index position t => exact E.raise (hat _ (by simp))
          | property key t =>
              have hfirst : E.At t := (hsteps (.property key t) (by simp)).1
              exact E.raise (hfirst _ (by simp))
  | some old =>
      obtain ⟨hok, herror⟩ := E.closed.replace hv steps hsteps old (hfound old rfl)
      dsimp only
      cases hr : Value.replace v steps old with
      | ok value => exact E.assign (hassign name hname) (hok value hr)
      | error f => exact E.raise (herror f hr)

namespace Simulation

variable {M N : Type → Type} [Evaluation M] [Evaluation N] (S : Simulation M N)

/-- Two environments execute bodies in related ways. -/
def Executes (S : Simulation M N) (env : Env M) (env' : Env N) : Prop :=
  ∀ {f : Function} {frame : Frame} {token : Token},
    S.Good (.function f) → Table.Each S.Good frame → S.At token →
      S.Holds (fun r => S.Good r.1 ∧ Table.Each S.Good r.2)
        (env.execute f frame token) (env'.execute f frame token)

/-- Two environments that execute bodies, show values and repeat loops in related ways. -/
structure Respects (env : Env M) (env' : Env N) : Prop where
  natives : env'.rules.natives = env.rules.natives
  constants : ∀ name v, Table.get? env.rules.natives name = some (.constant v) → S.Good v
  execute : S.Executes env env'
  display {v : Value} : S.Good v → S.Holds (fun _ => True) (env.display v) (env'.display v)
  loop {c : M Bool} {c' : N Bool} {b : M Flow} {b' : N Flow} :
    S.Loops → S.Holds (fun _ => True) c c' → S.Holds (Flow.Good S.toTerms) b b' →
      S.Holds (Flow.Good S.toTerms) (Env.repeatWhile c b env.rounds)
        (Env.repeatWhile c' b' env'.rounds)

theorem read (name : Text) : S.Holds S.Good (Evaluation.read name) (Evaluation.read name) := by
  refine S.bind (S.lookup? name) fun found hfound => S.pure ?_
  cases found with
  | none => exact S.closed.null
  | some v => exact hfound v rfl

theorem resolve {v : Value} (hv : S.Good v) :
    S.Holds S.Good (Evaluation.resolve v) (Evaluation.resolve v) := by
  cases v with
  | nameRef name => exact S.read name
  | _ => exact S.pure hv

theorem ofExcept {α : Type} {Q : α → Prop} {location : Location} {r : Except Cause α}
    (hok : ∀ a, r = .ok a → Q a) (herror : ∀ c, r = .error c → S.Raisable c location) :
    S.Holds Q (Evaluation.ofExcept location r) (Evaluation.ofExcept location r) := by
  cases r with
  | ok a => exact S.pure (hok a rfl)
  | error c => exact S.raise (herror c rfl)

end Simulation

end Script
