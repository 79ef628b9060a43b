import Script.Proofs.Values

/-! # What a program can raise

A fault comes from a node of the running program and is placed at a token of that node. Functions
carry their statements and their tokens through the heap, through objects and through calls, so the
argument goes along with an invariant on values: every function in them stands in the program. -/

namespace Script

/-- All expressions of a program, those inside others included. -/
def Program.exprs (program : Program) : List Expr :=
  program.statements.flatMap fun s => s.exprs.flatMap Expr.parts

theorem Program.mem_exprs {program : Program} {s : Stmt} {whole e : Expr}
    (hs : s ∈ program.statements) (hwhole : whole ∈ s.exprs) (he : e ∈ whole.parts) :
    e ∈ program.exprs :=
  List.mem_flatMap.mpr ⟨s, hs, List.mem_flatMap.mpr ⟨whole, hwhole, he⟩⟩

theorem Program.exists_of_mem_exprs {program : Program} {e : Expr} (he : e ∈ program.exprs) :
    ∃ s ∈ program.statements, ∃ whole ∈ s.exprs, e ∈ whole.parts := by
  simpa [Program.exprs] using he

theorem Program.exprs_of_parts {program : Program} {e p : Expr} (he : e ∈ program.exprs)
    (hp : p ∈ e.parts) : p ∈ program.exprs := by
  obtain ⟨s, hs, whole, hwhole, he⟩ := Program.exists_of_mem_exprs he
  exact Program.mem_exprs hs hwhole (whole.parts_of_parts he hp)

/-- The causes and locations that the nodes of a program allow. A function is reported at its own
token where it shows an object or has the wrong parameters for a start; only a program that is
started can miss its first function. -/
inductive Program.Raises (program : Program) (started : Bool) : Cause → Location → Prop
  | expr {e : Expr} {cause : Cause} : e ∈ program.exprs → e ≠ .hole → ¬ cause.AboutShape →
      Raises program started cause e.token.location
  | function {name : Text} {params : List Text} {body : List Stmt} {t : Token} {cause : Cause} :
      .func name params body t ∈ program.statements → ¬ cause.AboutShape →
      Raises program started cause t.location
  | callee {callee : Expr} {args : List Expr} {t : Token} : .call callee args t ∈ program.exprs →
      callee.name? = none → Raises program started (.notCallable callee.text) t.location
  | target {target value : Expr} {t : Token} {location : Location} :
      .assign target value t ∈ program.exprs → target.place t = .nowhere location →
      Raises program started (.invalidTarget target.text) location
  | member {name : Text} {members : List Stmt} {t : Token} {s : Stmt} :
      .classDef name members t ∈ program.statements → s ∈ members → s.isFunc = false →
      Raises program started (.classMember name) (s.memberLocation t)
  | start {cause : Cause} : started = true → cause.AboutMain →
      Raises program started cause Env.entry

/-! ## Functions of the program -/

/-- A function stands in the program, with its head, its statements and its token. -/
def Program.Contains (program : Program) : Value → Prop
  | .function f => .func f.name f.params f.stmts f.token ∈ program.statements
  | _ => True

theorem Program.contains_robust (program : Program) : Value.Robust program.Contains where
  plain v _ hfunction _ := by
    cases v with
    | function f => exact absurd rfl hfunction
    | _ => trivial
  insert _ _ _ _ := trivial

theorem Program.contains_function {program : Program} {name : Text} {params : List Text}
    {body : List Stmt} {t : Token} (h : .func name params body t ∈ program.statements)
    (id : BodyId) :
    (Value.function ⟨name, params, some ⟨id, name, params, body⟩, t⟩).Throughout
      program.Contains :=
  (Value.throughout_of_parts rfl).mpr h

/-- The members of a class lead to tables of functions of the program. -/
theorem Stmt.AddTo.contained {program : Program} {members : List Stmt}
    (hmembers : ∀ s ∈ members, s ∈ program.statements) {fields final : Table Value}
    (h : Stmt.AddTo members fields final)
    (hfields : Table.Each (Value.Throughout program.Contains) fields) :
    Table.Each (Value.Throughout program.Contains) final := by
  induction members generalizing fields with
  | nil =>
      cases h
      exact hfields
  | cons s rest ih =>
      cases s with
      | func name params body t =>
          obtain ⟨id, h⟩ := h
          obtain ⟨hfunc, hrest⟩ := List.forall_mem_cons.mp hmembers
          exact ih hrest h (hfields.insert name (Program.contains_function hfunc id))
      | _ => cases h

/-! ## Terms -/

/-- The terms under which only nodes of the program raise something. -/
def Terms.raising (program : Program) (started : Bool) : Terms :=
  { Terms.free with
    Good := Value.Throughout program.Contains
    Declarable := fun _ v => v.Throughout program.Contains
    Raisable := program.Raises started }

theorem Terms.closed_raising (program : Program) (started : Bool) :
    (Terms.raising program started).Closed :=
  { program.contains_robust.closed fun _ v => v.Throughout program.Contains with
    function := fun hf _ hcause => .function ((Value.throughout_of_parts rfl).mp hf) hcause }

section

variable {program : Program} {started : Bool}

theorem Program.fit_expr {e : Expr} (he : e ∈ program.exprs) :
    e.Fit (Terms.raising program started) := by
  have hat : e ≠ .hole → (Terms.raising program started).At e.token :=
    fun hhole _ hcause => .expr he hhole hcause
  cases e with
  | hole => trivial
  | assign target value t =>
      refine ⟨hat (by simp), ?_⟩
      cases hplace : target.place t with
      | whole name => trivial
      | inside name token => exact ⟨trivial, fun _ _ => trivial⟩
      | nowhere location => exact .target he hplace
  | call callee args t => exact ⟨hat (by simp), fun hcallee => .callee he hcallee⟩
  | _ => exact hat (by simp)

/-- What stands in the program fits the program. -/
theorem Program.fits_statement {s : Stmt} (hs : s ∈ program.statements) :
    s.Fits (Terms.raising program started) := by
  intro p hp
  have hinside : ∀ q ∈ p.statements, q ∈ program.statements := fun q hq =>
    Stmt.statementsAll_trans _ hs (s.statements_of_parts hp hq)
  have hself := hinside p p.self_mem_statements
  refine ⟨fun e he q hq => Program.fit_expr (Program.mem_exprs hself he hq), ?_⟩
  cases p with
  | func name params body t => exact fun id => Program.contains_function hself id
  | classDef name members t =>
      refine ⟨fun fields hfields => ?_, fun member hmember hfunc => .member hself hmember hfunc⟩
      have hmembers : ∀ member ∈ members, member ∈ program.statements := fun member hmember =>
        hinside member (List.mem_cons_of_mem _
          (Stmt.mem_statementsAll hmember member.self_mem_statements))
      have hname : (Value.string name).Throughout program.Contains :=
        (Value.throughout_of_parts rfl).mpr trivial
      exact Value.throughout_object.mpr
        ⟨trivial, hfields.contained hmembers ((Table.Each.nil _).insert nameKey hname)⟩
  | _ => trivial

theorem Program.fits_stmts {f : Function}
    (hf : (Value.function f).Throughout program.Contains) {s : Stmt} (hs : s ∈ f.stmts) :
    s.Fits (Terms.raising program started) := by
  have hfunc : .func f.name f.params f.stmts f.token ∈ program.statements :=
    (Value.throughout_of_parts rfl).mp hf
  refine Program.fits_statement (Stmt.statementsAll_trans _ hfunc ?_)
  exact List.mem_cons_of_mem _ (Stmt.mem_statementsAll hs s.self_mem_statements)

end

/-! ## Runs -/

/-- The contract to raise only what the nodes of the program allow. -/
def Contract.raising (program : Program) (started : Bool) : Contract :=
  { Contract.throughout program.contains_robust
      fun (_ : Text) v (h : v.Throughout program.Contains) => h with
    toTerms := Terms.raising program started
    closed := Terms.closed_raising program started }

theorem Contract.nested_raising (program : Program) (started : Bool) (rules : Rules)
    (hnatives : rules.natives = Native.standard) :
    (Contract.raising program started).Nested rules where
  entering hk _ hframe := ⟨hframe, List.forall_mem_cons.mpr ⟨hk.frame, hk.waiting⟩, hk.heap⟩
  leaving hk hm _ := ⟨⟨hk.frame, hk.waiting, hm.heap⟩, trivial⟩
  bodies _ hf _ hs := Program.fits_stmts hf hs
  constants name v hget := absurd (hnatives ▸ hget) (Native.standard_constants name v)
  updates _ _ := trivial
  givesUp := trivial

/-- Whatever a program does in a fresh session, its faults come from its nodes. -/
theorem Program.raises_of_fault {program : Program} {args : Option (List Text)}
    {limit rounds : Nat} {f : Fault} {m : Machine}
    (h : (({} : Session).setLimit limit).perform rounds (Operation.ofProgram program args).perform =
      .fault f m) : program.Raises args.isSome f.cause f.location := by
  have hbody : ∀ s ∈ program.body, s.Fits (Terms.raising program args.isSome) := fun s hs =>
    Program.fits_statement (Stmt.mem_statementsAll hs s.self_mem_statements)
  have hfits : (Operation.ofProgram program args).Fits (Terms.raising program args.isSome) := by
    cases args with
    | none => exact hbody
    | some args => exact ⟨hbody, fun _ hcause => .start rfl hcause⟩
  have hrespects := (Contract.nested_raising program args.isSome
    (({} : Session).setLimit limit).rules rfl).respects rounds
  have hrun : (Contract.raising program args.isSome).Fulfils (fun _ => True) ⟨{}, []⟩
      ((({} : Session).setLimit limit).perform rounds
        (Operation.ofProgram program args).perform) :=
    (hrespects.perform _ hfits ⟨{}, []⟩ ⟨Table.Each.nil _, by simp, by simp⟩).fulfils
  rw [h] at hrun
  exact hrun.1

end Script
