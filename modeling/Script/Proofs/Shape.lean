import Script.Proofs.Grammar.Occurrence
import Script.Proofs.Layout
import Script.Proofs.Raising

/-! # The shape of parsed programs

Trees can hold more than the parser builds: missing children, assignments to sums, classes with
loops in them. The evaluator has faults for such trees. The parser never builds one, and of the
faults only those remain that a call and an assignment of the right shape can still run into. -/

namespace Script

/-- Nothing is missing in an expression, and it assigns to names, items and properties only. -/
def Expr.Shaped (e : Expr) : Prop :=
  ∀ p ∈ e.parts, p ≠ .hole ∧ ∀ target value t, p = .assign target value t → target.isTarget = true

/-- A statement as the parser builds it. Only the value of a `return` and the outer two parts of
a `for` header may be missing. -/
inductive Stmt.Shaped : Stmt → Prop
  | expr {e : Expr} {t : Token} : e.Shaped → Shaped (.expr e t)
  | func {name : Text} {params : List Text} {body : List Stmt} {t : Token} : params.Nodup →
      (∀ s ∈ body, s.Shaped) → Shaped (.func name params body t)
  | classDef {name : Text} {members : List Stmt} {t : Token} :
      (∀ s ∈ members, s.isFunc = true) → (∀ s ∈ members, s.Shaped) →
      Shaped (.classDef name members t)
  | ret {value : Expr} {t : Token} : (value ≠ .hole → value.Shaped) → Shaped (.ret value t)
  | branch {condition : Expr} {thenBody elseBody : List Stmt} {hasElse : Bool} {t : Token} :
      condition.Shaped → (∀ s ∈ thenBody, s.Shaped) → (∀ s ∈ elseBody, s.Shaped) →
      (hasElse = false → elseBody = []) → Shaped (.branch condition thenBody hasElse elseBody t)
  | whileLoop {condition : Expr} {body : List Stmt} {t : Token} : condition.Shaped →
      (∀ s ∈ body, s.Shaped) → Shaped (.whileLoop condition body t)
  | forLoop {init : Stmt} {condition post : Expr} {body : List Stmt} {t : Token} :
      (init ≠ .hole → init.Shaped) → condition.Shaped → (post ≠ .hole → post.Shaped) →
      (∀ s ∈ body, s.Shaped) → Shaped (.forLoop init condition post body t)

def Program.Shaped (program : Program) : Prop :=
  ∀ s ∈ program.body, s.Shaped

/-! ## What the grammar spells -/

namespace Grammar

theorem Expression.shape {level : Level} {w : List Token} {e : Expr} (h : Expression level w e) :
    e ≠ .hole ∧ ∀ target value t, e = .assign target value t → target.isTarget = true := by
  induction h with
  | inner _ ih | group _ _ _ ih => exact ih
  | assign _ htarget _ _ _ _ =>
      refine ⟨by simp, fun target value t heq => ?_⟩
      cases heq
      exact htarget
  | _ => simp

theorem Expression.shaped {level : Level} {w : List Token} {e : Expr}
    (h : Expression level w e) : e.Shaped := by
  intro p hp
  obtain ⟨_, _, _, hspelled⟩ := h.occurs p hp
  exact hspelled.shape

theorem Optional.shaped {w : List Token} {e : Expr} (h : Optional w e) :
    e ≠ .hole → e.Shaped := by
  cases h with
  | none => exact absurd rfl
  | some h => exact fun _ => h.shaped

theorem Initializer.shaped {w : List Token} {s : Stmt} (h : Initializer w s) :
    s ≠ .hole → s.Shaped := by
  cases h with
  | none => exact absurd rfl
  | some h => exact fun _ => .expr h.shaped

theorem Parameters.nodup {w : List Token} {names : List Text} (h : Parameters w names) :
    names.Nodup := by
  cases h with
  | none => exact List.nodup_nil
  | some _ hnames => exact hnames

theorem Statement.isFunc {ending : List Token → Prop} {w : List Token} {s : Stmt}
    (h : Statement ending .function w s) : s.isFunc = true := by
  cases h
  rfl

theorem Statement.shaped {ending : List Token → Prop} {form : Form} {w : List Token} {s : Stmt}
    (h : Statement ending form w s) : s.Shaped := by
  induction h with
  | function _ _ _ hparams _ _ _ ih => exact .func hparams.nodup (List.forall_mem_map.mpr ih)
  | func _ ih | branch _ ih => exact ih
  | classDef _ _ _ hmembers _ _ ih =>
      refine .classDef ?_ (List.forall_mem_map.mpr ih)
      exact List.forall_mem_map.mpr fun part hpart => (hmembers part hpart).isFunc
  | ret _ hvalue _ => exact .ret hvalue.shaped
  | expr he _ => exact .expr he.shaped
  | whileLoop _ hcondition _ _ ih =>
      exact .whileLoop hcondition.shaped (List.forall_mem_map.mpr ih)
  | forLoop _ _ hinit _ hcondition _ hpost _ _ _ ih =>
      exact .forLoop hinit.shaped hcondition.shaped hpost.shaped (List.forall_mem_map.mpr ih)
  | single _ hcondition _ _ ih =>
      exact .branch hcondition.shaped (List.forall_mem_map.mpr ih) (by simp) fun _ => rfl
  | otherwise _ hcondition _ _ _ _ _ ih ihothers =>
      exact .branch hcondition.shaped (List.forall_mem_map.mpr ih)
        (List.forall_mem_map.mpr ihothers) (by simp)
  | elseIf _ hcondition _ _ _ _ ih ihnext | elseif _ hcondition _ _ _ ih ihnext =>
      exact .branch hcondition.shaped (List.forall_mem_map.mpr ih) (by simpa using ihnext)
        (by simp)

theorem Body.shaped {w : List Token} {body : List Stmt} (h : Body Ending w body) :
    ∀ s ∈ body, s.Shaped := by
  obtain ⟨parts, hparts, -, rfl⟩ := h
  exact List.forall_mem_map.mpr fun part hpart => (hparts part hpart).shaped

end Grammar

theorem Program.shaped_of_parse {tokens : List Token} {program : Program}
    (hfinished : Grammar.Finished tokens) (hparse : Program.parse tokens = .ok program) :
    program.Shaped := by
  obtain ⟨last, hlast, hend⟩ := hfinished
  obtain ⟨-, w, t, rest, -, -, hbody⟩ := Program.body_of_parse hlast hend hparse
  exact hbody.shaped

/-! ## Inside a shaped program -/

/-- Every statement inside a shaped one is shaped, unless it is missing. -/
theorem Stmt.Shaped.inside {s : Stmt} (h : s.Shaped) :
    ∀ q ∈ s.statements, q ≠ .hole → q.Shaped := by
  have hself := h
  induction h with
  | expr _ | ret _ => simpa [Stmt.statements] using hself
  | func _ hbody ih | classDef _ hbody ih | whileLoop _ hbody ih =>
      refine List.forall_mem_cons.mpr ⟨fun _ => hself, ?_⟩
      exact Stmt.forall_statementsAll.mpr fun s hs => ih s hs (hbody s hs)
  | branch _ hthen helse _ ih ih' =>
      refine List.forall_mem_cons.mpr ⟨fun _ => hself, List.forall_mem_append.mpr ⟨?_, ?_⟩⟩
      · exact Stmt.forall_statementsAll.mpr fun s hs => ih s hs (hthen s hs)
      · exact Stmt.forall_statementsAll.mpr fun s hs => ih' s hs (helse s hs)
  | @forLoop init _ _ _ _ hinit _ _ hbody ih ih' =>
      refine List.forall_mem_cons.mpr ⟨fun _ => hself, List.forall_mem_append.mpr ⟨?_, ?_⟩⟩
      · by_cases hhole : init = .hole
        · simp [hhole, Stmt.statements]
        · exact ih hhole (hinit hhole)
      · exact Stmt.forall_statementsAll.mpr fun s hs => ih' s hs (hbody s hs)

/-- So is every expression that stands in it. -/
theorem Stmt.Shaped.expr_shaped {s : Stmt} (h : s.Shaped) {e : Expr} (he : e ∈ s.exprs)
    (hhole : e ≠ .hole) : e.Shaped := by
  cases h with
  | expr hexpr | branch hexpr | whileLoop hexpr =>
      cases List.mem_singleton.mp he
      exact hexpr
  | ret hvalue =>
      cases List.mem_singleton.mp he
      exact hvalue hhole
  | forLoop _ hcondition hpost _ =>
      rcases List.mem_pair.mp he with rfl | rfl
      · exact hcondition
      · exact hpost hhole
  | func _ _ | classDef _ _ => cases he

namespace Program

variable {program : Program} (h : program.Shaped)
include h

theorem Shaped.statement {s : Stmt} (hs : s ∈ program.statements) (hhole : s ≠ .hole) :
    s.Shaped :=
  Stmt.forall_statementsAll.mpr (fun s hs => (h s hs).inside) s hs hhole

theorem Shaped.expr {e : Expr} (he : e ∈ program.exprs) (hhole : e ≠ .hole) : e.Shaped := by
  obtain ⟨s, hs, whole, hwhole, he⟩ := Program.exists_of_mem_exprs he
  have hs' : s ≠ .hole := by
    rintro rfl
    cases hwhole
  have hwhole' : whole ≠ .hole := by
    rintro rfl
    exact hhole (List.mem_singleton.mp he)
  have hshaped := (h.statement hs hs').expr_shaped hwhole hwhole'
  exact fun p hp => hshaped p (whole.parts_of_parts he hp)

/-- An assignment is to a chain that starts somewhere in the program. -/
theorem Shaped.root {target value : Expr} {t : Token}
    (he : .assign target value t ∈ program.exprs) :
    target.root ∈ program.exprs ∧ target.root ≠ .hole := by
  have hroot : target.root ∈ (Expr.assign target value t).parts :=
    List.mem_cons_of_mem _ (List.mem_append_left _ target.root_mem_parts)
  exact ⟨Program.exprs_of_parts he hroot, (h.expr he (by simp) _ hroot).1⟩

/-- A class has nothing but functions among its members. -/
theorem Shaped.members {name : Text} {members : List Stmt} {t : Token}
    (hs : .classDef name members t ∈ program.statements) {s : Stmt} (hmember : s ∈ members) :
    s.isFunc = true := by
  cases h.statement hs (by simp) with
  | classDef hfuncs _ => exact hfuncs s hmember

end Program

/-! ## Faults about shapes -/

/-- A target without a place is a chain that starts at something else than a name. It is reported
there, or at the assignment if the start is missing. -/
theorem Expr.root_of_nowhere {target : Expr} {token : Token} {location : Location}
    (h : target.place token = .nowhere location) (hhole : target.root ≠ .hole) :
    target.root.name? = none ∧ location = target.root.token.location := by
  unfold Expr.place at h
  split at h
  · cases h
  · split at h
    · cases h
    · exact absurd ‹_› hhole
    · next hident _ =>
      cases h
      refine ⟨?_, rfl⟩
      unfold Expr.name?
      split
      · exact absurd ‹_› (hident _ _)
      · rfl

/-- The uses of a well-shaped tree that have no meaning: a call of something that has no name, and
an assignment to a chain that does not start at a name. -/
inductive Program.Misuses (program : Program) : Fault → Prop
  | call {callee : Expr} {args : List Expr} {t : Token} : .call callee args t ∈ program.exprs →
      callee.name? = none → Misuses program ⟨.notCallable callee.text, t.location⟩
  | assign {target value : Expr} {t : Token} : .assign target value t ∈ program.exprs →
      target.root.name? = none →
      Misuses program ⟨.invalidTarget target.text, target.root.token.location⟩

/-- Of all messages only the one about an operator starts with its letter. -/
theorem Cause.about_operator_of_message {cause : Cause}
    (h : ("Unsupported operator" : Text) <+: cause.message) :
    ∃ op, cause = .unsupportedOperator op := by
  have hfirst : (∃ op, cause = .unsupportedOperator op) ∨
      ∃ b rest, cause.message = b :: rest ∧ b ≠ 85 := by
    cases cause with
    | unsupportedOperator op => exact .inl ⟨op, rfl⟩
    | _ => exact .inr ⟨_, _, rfl, by decide⟩
  rcases hfirst with hop | ⟨b, rest, hmessage, hb⟩
  · exact hop
  · rw [hmessage] at h
    obtain ⟨tail, heq⟩ := h
    exact absurd (List.cons.inj heq).1.symm hb

/-- What a well-shaped program raises about the shape of a tree is a misuse. -/
theorem Program.Raises.misuses {program : Program} (hshaped : program.Shaped) {started : Bool}
    {f : Fault} (h : program.Raises started f.cause f.location) (hcause : f.cause.AboutShape) :
    program.Misuses f := by
  obtain ⟨cause, location⟩ := f
  cases h with
  | expr _ _ hplain | function _ hplain => exact absurd hcause hplain
  | callee hcall hname => exact .call hcall hname
  | target hassign hplace =>
      obtain ⟨hname, rfl⟩ := Expr.root_of_nowhere hplace (hshaped.root hassign).2
      exact .assign hassign hname
  | member hclass hmember hfunc =>
      rw [hshaped.members hclass hmember] at hfunc
      cases hfunc
  | start _ hmain => cases cause <;> simp at hcause hmain

/-- An accepted program has the shape that the evaluator expects. However it is run, the faults
about shapes are those of misuses: none is about a member of a class, and none about an
operator. -/
theorem accepted_program_shaped {file text : Text} {source : Option Source} {tokens : List Token}
    {program : Program} (hscan : Token.scan file source text = .ok tokens)
    (hparse : Program.parse tokens = .ok program) :
    program.Shaped ∧ ∀ (args : Option (List Text)) (limit rounds : Nat) (f : Fault) (m : Machine),
      (({} : Session).setLimit limit).perform rounds (Operation.ofProgram program args).perform =
        .fault f m →
      (f.cause.category = "UnexpectedNodeError" → program.Misuses f) ∧
        (∀ name, f.cause ≠ .classMember name) ∧
        ¬ ("Unsupported operator" : Text) <+: f.cause.message := by
  have hshaped := Program.shaped_of_parse (Token.scan_finished hscan) hparse
  refine ⟨hshaped, fun args limit rounds f m hfault => ?_⟩
  have hmisuses := (Program.raises_of_fault hfault).misuses hshaped
  refine ⟨fun h => hmisuses (f.cause.aboutShape_iff.mpr (.inl h)), fun name hcause => ?_,
    fun hmessage => ?_⟩
  · have hmisuse := hmisuses (by simp [hcause])
    cases hmisuse <;> cases hcause
  · obtain ⟨op, hcause⟩ := Cause.about_operator_of_message hmessage
    have hmisuse := hmisuses (by simp [hcause])
    cases hmisuse <;> cases hcause

/-- An item of a new array is an item, but there is nothing to keep it in. -/
theorem item_of_new_array_misused :
    let fault : Fault := ⟨.invalidTarget "[1][0]", ⟨"<input>", 1, 1, 1, none⟩⟩
    ∃ tokens program m, Token.scan [] none "[1][0] = 2" = .ok tokens ∧
      Program.parse tokens = .ok program ∧
      (({} : Session).setLimit 0).perform 0 (Operation.ofProgram program none).perform =
        .fault fault m ∧
      program.Shaped ∧ fault.cause.category = "UnexpectedNodeError" ∧ program.Misuses fault := by
  intro fault
  obtain ⟨tokens, program, m, hscan, hparse, hfault⟩ : ∃ tokens program m,
      Token.scan [] none "[1][0] = 2" = .ok tokens ∧ Program.parse tokens = .ok program ∧
      (({} : Session).setLimit 0).perform 0 (Operation.ofProgram program none).perform =
        .fault fault m := ⟨_, _, _, rfl, rfl, rfl⟩
  obtain ⟨hshaped, hfaults⟩ := accepted_program_shaped hscan hparse
  have hmisuses := (hfaults none 0 0 fault m hfault).1 rfl
  exact ⟨tokens, program, m, hscan, hparse, hfault, hshaped, rfl, hmisuses⟩

end Script
