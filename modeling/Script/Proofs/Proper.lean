import Script.Proofs.Values

/-! # Values that programs can make

A host may hand any value to a session. Programs by themselves make only proper ones: there are no
references to variables, every object carries a class name, and every function has a body under its
own head. Where all values are proper, resolving a reference has nothing to do. -/

namespace Script

open Evaluation

/-- What holds of a single value that a program has made. -/
def Value.Proper : Value → Prop
  | .nameRef _ => False
  | .function f => ∃ body, f.body = some body ∧ body.name = f.name ∧ body.params = f.params
  | .object fields => Table.contains fields nameKey
  | _ => True

theorem Value.proper_robust : Value.Robust Value.Proper where
  plain v href hfunction hobject := by
    cases v with
    | nameRef name => exact absurd rfl href
    | function f => exact absurd rfl hfunction
    | object fields => exact absurd rfl hobject
    | _ => trivial
  insert fields key v h := Table.contains_insert h key v

/-! ## Declarations -/

theorem Function.declared_proper (id : BodyId) (name : Text) (params : List Text)
    (body : List Stmt) (token : Token) :
    (Value.function ⟨name, params, some ⟨id, name, params, body⟩, token⟩).Throughout Value.Proper :=
  (Value.throughout_of_parts rfl).mpr ⟨_, rfl, rfl, rfl⟩

/-- The members of a class lead to tables of proper values, and a class name is not lost. -/
theorem Stmt.AddTo.proper {members : List Stmt} {fields final : Table Value}
    (h : Stmt.AddTo members fields final)
    (hfields : (Value.object fields).Throughout Value.Proper) :
    (Value.object final).Throughout Value.Proper := by
  induction members generalizing fields with
  | nil =>
      cases h
      exact hfields
  | cons s rest ih =>
      cases s with
      | func name params body t =>
          obtain ⟨id, h⟩ := h
          obtain ⟨hname, hvalues⟩ := Value.throughout_object.mp hfields
          refine ih h (Value.throughout_object.mpr ⟨?_, ?_⟩)
          · exact Table.contains_insert hname name _
          · exact hvalues.insert name (Function.declared_proper id name params body t)
      | _ => cases h

theorem Stmt.Declares.proper {s : Stmt} {name : Text} {v : Value} (h : s.Declares name v) :
    v.Throughout Value.Proper := by
  cases s with
  | func f params body t =>
      obtain ⟨-, id, rfl⟩ := h
      exact Function.declared_proper id f params body t
  | classDef c members t =>
      obtain ⟨-, fields, hfields, rfl⟩ := h
      refine hfields.proper (Value.throughout_object.mpr ⟨?_, ?_⟩)
      · simp [Value.Proper, Table.contains, Table.get?]
      · exact (Table.Each.nil _).insert nameKey
          ((Value.throughout_of_parts (v := .string c) rfl).mpr trivial)
  | _ => cases h

/-! ## Runs -/

/-- The contract to make only proper values. -/
def Contract.proper : Contract :=
  Contract.throughout Value.proper_robust fun (_ : Text) v (h : v.Throughout Value.Proper) => h

/-- Every statement keeps the contract, whatever it declares. -/
theorem Stmt.fits_proper (s : Stmt) : s.Fits Contract.proper.toTerms :=
  Stmt.fits_throughout fun _ _ _ _ h => h.proper

theorem Contract.nested_proper {rules : Rules} (hnatives : rules.natives = Native.standard) :
    Contract.proper.Nested rules :=
  Contract.nested_throughout _ _ (fun _ _ s _ => s.fits_proper) hnatives

/-- Proper values are bound in all active frames and stored in the heap. -/
abbrev Moment.Proper (k : Moment) : Prop :=
  k.Within Value.Proper fun _ v => v.Throughout Value.Proper

/-- The sessions that programs lead to from a fresh one. A host may change the limit on nested
calls, but hands over no values. -/
inductive Session.Reachable : Session → Prop
  | fresh : Reachable {}
  | limited {s : Session} (limit : Nat) : Reachable s → Reachable (s.setLimit limit)
  | next {s : Session} {program : Program} {args : Option (List Text)}
    {o : Outcome (Operation.ofProgram program args).Result} :
    Reachable s → s.Ends (.ofProgram program args) o → Reachable (s.next o)

theorem Session.perform_proper {s : Session} (hnatives : s.rules.natives = Native.standard)
    (hs : Moment.Proper ⟨s.machine, []⟩) (program : Program) (args : Option (List Text))
    (rounds : Nat) :
    Contract.proper.Holds (fun _ => True)
      ((Operation.ofProgram program args).perform (s.rules.env rounds))
      ((Operation.ofProgram program args).perform (s.rules.env rounds)) ⟨s.machine, []⟩ := by
  have hfits : (Operation.ofProgram program args).Fits Contract.proper.toTerms :=
    Operation.fits_ofProgram (fun stmt _ => stmt.fits_proper) (fun _ _ => trivial) args
  exact ((Contract.nested_proper hnatives).respects rounds).perform _ hfits _ hs

theorem Session.Reachable.proper {s : Session} (hs : s.Reachable) :
    s.rules.natives = Native.standard ∧ Moment.Proper ⟨s.machine, []⟩ := by
  induction hs with
  | fresh => exact ⟨rfl, Table.Each.nil _, by simp, by simp⟩
  | limited limit _ ih => exact ih
  | @next s program args o _ hends ih =>
      obtain ⟨hgiven, rounds, rfl⟩ := hends
      have hrun := (Session.perform_proper ih.1 ih.2 program args rounds).fulfils
      have hleaves : (s.perform rounds (Operation.ofProgram program args).perform).Leaves
          fun m => Moment.Proper ⟨m, []⟩ :=
        Outcome.Meets.mono hrun (fun _ _ h => h.2.1) (fun _ _ h => h.2.1) fun _ => trivial
      cases ho : s.perform rounds (Operation.ofProgram program args).perform with
      | done a m =>
          rw [ho] at hleaves
          exact ⟨ih.1, hleaves⟩
      | fault f m =>
          rw [ho] at hleaves
          exact ⟨ih.1, hleaves⟩
      | exhausted => exact absurd ho hgiven

/-! ## References and type names -/

theorem Evaluation.resolve_of_proper {M : Type → Type} [Evaluation M] {v : Value} (hv : v.Proper) :
    (resolve v : M Value) = pure v := by
  cases v with
  | nameRef name => cases hv
  | _ => rfl

theorem Value.Throughout.self {P : Value → Prop} {v : Value} (h : v.Throughout P) : P v := by
  refine h v ?_
  cases v <;> simp [Value.parts]

/-- The result of an evaluation, if it has one, is as promised. -/
def Outcome.Yields {α : Type} (P : α → Prop) : Outcome α → Prop :=
  Outcome.Meets (fun a _ => P a) (fun _ _ => True) True

theorem Contract.Fulfils.yields {C : Contract} {α : Type} {Q : α → Prop} {k : Moment}
    {o : Outcome α} (h : C.Fulfils Q k o) : o.Yields Q :=
  Outcome.Meets.mono h (fun _ _ hm => hm.1) (fun _ _ _ => trivial) fun _ => trivial

/-- Where the values of an evaluation are proper, resolving them afterwards changes nothing. -/
theorem Eval.bind_resolve {x : Eval Value} {m : Machine}
    (h : (x m).Yields (Value.Throughout Value.Proper)) :
    (x >>= resolve : Eval Value) m = x m := by
  simp only [Bind.bind, Eval.bind]
  cases ho : x m with
  | done v m' =>
      rw [ho] at h
      have hv : v.Proper := Value.Throughout.self h
      dsimp only
      rw [resolve_of_proper hv]
      rfl
  | fault f m' => rfl
  | exhausted => rfl

theorem Value.Kind.name_ne_nameRef {kind : Value.Kind} (h : kind ≠ .nameRef) :
    Text.ofString kind.name ≠ "nameref" := by
  cases kind with
  | nameRef => exact absurd rfl h
  | _ => decide

theorem Value.Proper.kind_ne_nameRef {v : Value} (hv : v.Proper) : v.kind ≠ .nameRef := by
  cases v with
  | nameRef name => cases hv
  | _ => nofun

/-- Where all values are proper, the built-in function that names types is never asked about a
reference. -/
theorem Simulation.Respects.typeName {M N : Type → Type} [Evaluation M] [Evaluation N]
    {S : Simulation M N} {env : Env M} {env' : Env N} (h : S.Respects env env')
    (hproper : ∀ v, S.Good v → v.Proper)
    (hnative : Table.get? env.rules.natives "type" = some .type) {args : List Expr}
    (hargs : ∀ e ∈ args, e.Fits S.toTerms) {token : Token} (hat : S.At token) (nameToken : Token) :
    S.Holds (fun v => v ≠ .string "nameref")
      (env.evalExpr (.call (.ident "type" nameToken) args token))
      (env'.evalExpr (.call (.ident "type" nameToken) args token)) := by
  have hnative' : Table.get? env'.rules.natives "type" = some .type := by rw [h.natives, hnative]
  simp only [Env.evalExpr, Expr.name?, Env.callee, hnative, hnative']
  refine S.bind (S.pure (Q := (· = .native .type)) rfl) ?_
  rintro _ rfl
  refine S.bind (h.evalAll args hargs) fun values hvalues => ?_
  refine S.bind (Simulation.oneArgument _ hvalues hat) fun v hv => S.pure ?_
  intro hname
  exact Value.Kind.name_ne_nameRef (hproper v hv).kind_ne_nameRef (Value.string.inj hname)

/-! ## Reachable sessions -/

/-- The session with the machine of a moment. -/
def Session.resume (s : Session) (k : Moment) : Session :=
  { s with machine := k.machine }

/-- Only proper values are there at a moment of a session: in the frames of all active calls, in the
heap, and as values of the expressions and arguments that are evaluated then. -/
structure Session.ProperAt (s : Session) (k : Moment) : Prop where
  frames : ∀ frame ∈ k.machine.frame :: k.waiting, Table.Each (Value.Throughout Value.Proper) frame
  heap : Table.Each (Value.Throughout Value.Proper) k.machine.heap
  value (rounds : Nat) (e : Expr) :
    ((s.resume k).perform rounds (·.evalExpr e)).Yields (Value.Throughout Value.Proper)
  arguments (rounds : Nat) (args : List Expr) :
    ((s.resume k).perform rounds (·.evalAll args)).Yields
      fun values => ∀ v ∈ values, v.Throughout Value.Proper
  resolve (rounds : Nat) (e : Expr) :
    (s.resume k).perform rounds (fun env => env.evalExpr e >>= Evaluation.resolve) =
      (s.resume k).perform rounds (·.evalExpr e)
  typeName (rounds : Nat) (args : List Expr) (nameToken token : Token) :
    ((s.resume k).perform rounds (·.evalExpr (.call (.ident "type" nameToken) args token))).Yields
      (· ≠ .string "nameref")

theorem Moment.Proper.properAt {s : Session} (hnatives : s.rules.natives = Native.standard)
    {k : Moment} (hk : k.Proper) : s.ProperAt k := by
  have hrespects := fun rounds => (Contract.nested_proper hnatives).respects rounds
  have hvalue : ∀ rounds e,
      ((s.resume k).perform rounds (·.evalExpr e)).Yields (Value.Throughout Value.Proper) :=
    fun rounds e => ((hrespects rounds).evalExpr e e.fits_throughout k hk).fulfils.yields
  refine ⟨?_, hk.heap, hvalue, ?_, ?_, ?_⟩
  · exact List.forall_mem_cons.mpr ⟨hk.frame, hk.waiting⟩
  · intro rounds args
    exact ((hrespects rounds).evalAll args (fun e _ => e.fits_throughout) k hk).fulfils.yields
  · exact fun rounds e => Eval.bind_resolve (hvalue rounds e)
  · intro rounds args nameToken token
    have hnative : Table.get? (s.rules.env (M := Traced) rounds).rules.natives "type" =
        some .type := by
      simp only [Rules.env, hnatives]
      rfl
    exact ((hrespects rounds).typeName (fun v hv => hv.self) hnative
      (fun e _ => e.fits_throughout) (fun _ _ => trivial) nameToken k hk).fulfils.yields

/-- However many programs have been evaluated or run in a session that was fresh, with or without
faults: at every moment of the next one only proper values are there, and what its start returns is
proper. So resolving references never changes a value, and no type is called a reference. -/
theorem reachable_values_proper {s : Session} (hs : s.Reachable) (program : Program)
    (rounds : Nat) :
    (∀ args, let op := Operation.ofProgram program args
      (s.trace rounds op.perform).2 = s.perform rounds op.perform ∧
        ∀ k ∈ s.moments rounds op.perform, s.ProperAt k) ∧
    ∀ args, (s.perform rounds (Operation.run program args).perform).Yields
      (Value.Throughout Value.Proper) := by
  obtain ⟨hnatives, hstart⟩ := hs.proper
  refine ⟨fun args => ?_, fun args => ?_⟩
  · have hrun := Session.perform_proper hnatives hstart program args rounds
    refine ⟨hrun.outcome_eq, fun k hk => Moment.Proper.properAt hnatives ?_⟩
    rcases List.mem_cons.mp hk with rfl | hk
    · exact hstart
    · exact hrun.moments k hk
  · have hrespects := (Contract.nested_proper hnatives).respects rounds
    have hentry : Contract.proper.AtEntry := fun _ _ => trivial
    exact (hrespects.runMain hentry (fun stmt _ => stmt.fits_proper) args _ hstart).fulfils.yields

/-- A class with a method, and a start that makes an instance of it. -/
def Program.boxes : Program where
  token := {}
  body := [
    .classDef "Box" [.func "open" ["self"] [.ret (.ident "self" {}) {}] {}] {},
    .func "main" ["args"] [.ret (.construct "Box" [] {}) {}] {}]

/-- A fresh session in which the program has been evaluated. -/
def Session.withBoxes : Session :=
  ({} : Session).next (({} : Session).perform 0 (Operation.evaluate .boxes).perform)

theorem instance_from_boxes_proper :
    Session.withBoxes.Reachable ∧
      ∃ fields m, Session.withBoxes.perform 1 (Operation.run ⟨{}, []⟩ ["tea"]).perform =
          .done (.object fields) m ∧ (Value.object fields).Throughout Value.Proper := by
  have hends : ({} : Session).Ends (.ofProgram .boxes none) (.done _ _) := ⟨nofun, 0, rfl⟩
  have hs : Session.withBoxes.Reachable := .next .fresh hends
  exact ⟨hs, _, _, rfl, (reachable_values_proper hs ⟨{}, []⟩ 1).2 ["tea"]⟩

end Script
