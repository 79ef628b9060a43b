import Script.Proofs.Operation
import Script.Proofs.Simulation.Contract

/-! # Termination of programs without loops

A program without loops can run on only by calls, and the limit on nested calls stops those. The
argument needs that every body that can be called is without loops too, so it goes along with an
invariant on values: they come from such programs, and no object shows itself by a method. -/

namespace Script

def Stmt.isLoop : Stmt → Bool
  | .whileLoop .. | .forLoop .. => true
  | _ => false

/-- The names that an expression adds to those of its parts. -/
def Expr.ownNames : Expr → List Text
  | .ident name _ => [name]
  | .method _ name _ _ => [name]
  | .member _ property _ => [property]
  | .construct className _ _ => [className]
  | _ => []

def Stmt.declaredNames : Stmt → List Text
  | .func name params _ _ => name :: params
  | .classDef name _ _ => [name]
  | _ => []

/-- The names that a statement adds to those of the statements inside it. -/
def Stmt.ownNames (s : Stmt) : List Text :=
  s.declaredNames ++ s.exprs.flatMap fun e => e.parts.flatMap Expr.ownNames

/-- All names that occur in a program. -/
def Program.names (program : Program) : List Text :=
  program.statements.flatMap Stmt.ownNames

/-! ## Tame programs and values -/

/-- A statement without loops and without the name of display methods. -/
def Stmt.Tame (s : Stmt) : Prop :=
  ∀ p ∈ s.statements, p.isLoop = false ∧ displayKey ∉ p.ownNames

theorem Stmt.Tame.part {s p : Stmt} (h : s.Tame) (hp : p ∈ s.parts) : p.Tame :=
  fun q hq => h q (s.statements_of_parts hp hq)

theorem Stmt.Tame.body {name : Text} {params : List Text} {body : List Stmt} {t : Token}
    (h : (Stmt.func name params body t).Tame) {s : Stmt} (hs : s ∈ body) : s.Tame :=
  fun q hq => h q (List.mem_cons_of_mem _ (Stmt.mem_statementsAll hs hq))

theorem Stmt.Tame.members {name : Text} {members : List Stmt} {t : Token}
    (h : (Stmt.classDef name members t).Tame) {s : Stmt} (hs : s ∈ members) : s.Tame :=
  fun q hq => h q (List.mem_cons_of_mem _ (Stmt.mem_statementsAll hs hq))

theorem Stmt.Tame.name_ne {name : Text} {params : List Text} {body : List Stmt} {t : Token}
    (h : (Stmt.func name params body t).Tame) : name ≠ displayKey := by
  have hnames := (h _ (Stmt.self_mem_statements _)).2
  rintro rfl
  exact hnames (by simp [Stmt.ownNames, Stmt.declaredNames])

/-- A value that calls only tame bodies and holds no display method. -/
inductive Value.Tame : Value → Prop
  | null : Tame .null
  | number (x : Number) : Tame (.number x)
  | string (s : Text) : Tame (.string s)
  | boolean (b : Bool) : Tame (.boolean b)
  | nameRef (name : Text) : Tame (.nameRef name)
  | array {items : List Value} : (∀ v ∈ items, Tame v) → Tame (.array items)
  | function {f : Function} : (∀ s ∈ f.stmts, s.Tame) → Tame (.function f)
  | object {fields : List (Text × Value)} : (∀ entry ∈ fields, entry.1 ≠ displayKey) →
    (∀ entry ∈ fields, Tame entry.2) → Tame (.object fields)

/-- The terms of tame programs. -/
def Terms.tame : Terms where
  Good := Value.Tame
  Assignable _ := True
  Updatable _ := True
  Settable key := key ≠ displayKey
  Declarable _ v := v.Tame
  Raisable _ _ := True
  Loops := False

theorem Value.Tame.insert {fields : Table Value} (h : (Value.object fields).Tame) {key : Text}
    (hkey : key ≠ displayKey) {v : Value} (hv : v.Tame) :
    (Value.object (Table.insert key v fields)).Tame := by
  cases h with
  | object hkeys hfields =>
      refine .object (fun entry he => ?_) (Table.Each.insert hfields key hv)
      rcases Table.mem_insert he with rfl | he
      · exact hkey
      · exact hkeys entry he

theorem Terms.closed_tame : Terms.tame.Closed where
  null := .null
  number := .number
  string := .string
  boolean := .boolean
  array items := by
    constructor
    · intro h
      cases h with
      | array hitems => exact hitems
    · exact .array
  fields h := by
    cases h with
    | object _ hfields => exact hfields
  insert h hkey hv := h.insert hkey hv
  function _ _ _ := trivial

theorem Expr.chainKeys_subset (e : Expr) {key : Text} (h : key ∈ e.chainKeys) :
    key ∈ e.parts.flatMap Expr.ownNames := by
  match e with
  | .index object position t =>
      have hkey := object.chainKeys_subset h
      simp only [Expr.parts, List.flatMap_cons, List.flatMap_append, List.mem_append]
      exact .inr (.inl hkey)
  | .member object property t =>
      simp only [Expr.parts, List.flatMap_cons, List.mem_append]
      rcases List.mem_cons.mp h with rfl | h
      · exact .inl (by simp [Expr.ownNames])
      · exact .inr (object.chainKeys_subset h)
  | .hole | .number .. | .string .. | .boolean .. | .null .. | .ident .. | .negate .. | .binary ..
  | .assign .. | .call .. | .method .. | .array .. | .construct .. => cases h

theorem Expr.fits_tame {e : Expr} (h : displayKey ∉ e.parts.flatMap Expr.ownNames) :
    e.Fits Terms.tame := by
  refine Expr.fits_of_assign (fun _ _ => trivial) (fun _ _ _ _ _ _ => trivial) ?_
  intro target value t name token hp _
  have htarget : ∀ q ∈ target.parts, q ∈ e.parts := fun q hq =>
    e.parts_of_parts hp (List.mem_cons_of_mem _ (List.mem_append_left _ hq))
  refine ⟨trivial, ?_⟩
  rintro key hkey rfl
  obtain ⟨q, hq, hname⟩ := List.mem_flatMap.mp (target.chainKeys_subset hkey)
  exact h (List.mem_flatMap.mpr ⟨q, htarget q hq, hname⟩)

/-- The members of a tame class lead to tame tables only. -/
theorem Stmt.AddTo.tame {members : List Stmt} (hmembers : ∀ s ∈ members, s.Tame)
    {fields final : Table Value} (h : Stmt.AddTo members fields final)
    (hfields : (Value.object fields).Tame) : (Value.object final).Tame := by
  induction members generalizing fields with
  | nil =>
      cases h
      exact hfields
  | cons s rest ih =>
      cases s with
      | func name params body t =>
          obtain ⟨id, h⟩ := h
          have hs := hmembers _ List.mem_cons_self
          have hbody : (Value.function ⟨name, params, some ⟨id, name, params, body⟩, t⟩).Tame :=
            .function fun s hs' => hs.body hs'
          exact ih (fun s hs' => hmembers s (List.mem_cons_of_mem _ hs')) h
            (hfields.insert hs.name_ne hbody)
      | _ => cases h

theorem Stmt.Tame.fits {s : Stmt} (h : s.Tame) : s.Fits Terms.tame := by
  intro p hp
  have hp := h.part hp
  obtain ⟨hloop, hnames⟩ := hp p p.self_mem_statements
  refine ⟨fun e he => Expr.fits_tame fun hin => hnames ?_, ?_⟩
  · exact List.mem_append_right _ (List.mem_flatMap.mpr ⟨e, he, hin⟩)
  · cases p with
    | func name params body t => exact fun id => .function fun s hs => hp.body hs
    | classDef name members t =>
        refine ⟨fun fields hfields => ?_, fun _ _ _ => trivial⟩
        refine hfields.tame (fun s hs => hp.members hs) (.object ?_ ?_)
        · simp only [List.mem_singleton]
          rintro entry rfl
          exact (by decide : nameKey ≠ displayKey)
        · simp only [List.mem_singleton]
          rintro entry rfl
          exact .string name
    | whileLoop condition body t => cases hloop
    | forLoop init condition post body t => cases hloop
    | _ => trivial

/-! ## Runs within the limit -/

/-- The contract to end while there is room for so many nested calls. -/
def Contract.ending (limit room : Nat) : Contract where
  toTerms := Terms.tame
  closed := Terms.closed_tame
  Inv k := Table.Each Value.Tame k.machine.frame ∧ Table.Each Value.Tame k.machine.heap ∧
    limit ≤ k.machine.depth + room
  Seen _ := True
  Step := Machine.SameDepth
  MayGiveUp := False
  seen _ := trivial
  refl := .refl
  trans := .trans
  frame h := h.1
  heap h := h.2.1
  assign _ hv h := ⟨⟨h.1.insert _ hv, h.2⟩, rfl⟩
  declare hv h := ⟨⟨h.1, h.2.1.insert _ hv, h.2.2⟩, rfl⟩
  freshBody h := ⟨h, rfl⟩
  print _ h := ⟨h, rfl⟩

/-- Inside a body there is room for one call less. -/
theorem Contract.ending_encloses (rules : Rules) (room : Nat) :
    (Contract.ending rules.limit (room + 1)).Encloses (Contract.ending rules.limit room) rules where
  entering := by
    rintro k frame ⟨-, hheap, hroom⟩ _ hframe
    refine ⟨hframe, hheap, ?_⟩
    simp only [Traced.entering]
    omega
  leaving := by
    rintro k frame m ⟨hframe, -, hroom⟩ ⟨-, hheap, -⟩ hstep
    have hdepth : m.depth - 1 = k.machine.depth := by
      rw [hstep]
      simp [Traced.entering]
    refine ⟨⟨hframe, hheap, ?_⟩, hdepth⟩
    simp only [Traced.leaving, hdepth]
    exact hroom

theorem Value.Tame.no_display {fields : Table Value} (h : (Value.object fields).Tame) (v : Value) :
    Table.get? fields displayKey ≠ some v := by
  cases h with
  | object hkeys _ => exact fun hget => hkeys _ (Table.mem_of_get? hget) rfl

/-- Tame values are shown without executing anything, and there are no loops to repeat. -/
theorem Contract.ending_respects_of_executes {rules : Rules} {room n : Nat}
    (hexec : ((Contract.ending rules.limit room).simulation fun _ h => h).Executes
      (rules.env (n + 1)) (rules.env (n + 1)))
    (hconstants : ∀ name v, Table.get? rules.natives name = some (.constant v) → v.Tame) :
    ((Contract.ending rules.limit room).simulation fun _ h => h).Respects
      (rules.env (n + 1)) (rules.env (n + 1)) where
  natives := rfl
  constants := hconstants
  execute := hexec
  display hv := by
    refine Simulation.displayWith hexec ?_ .alone _ hv
    rintro ⟨fields, f, hfields, hget⟩
    exact absurd hget (Value.Tame.no_display hfields _)
  loop h := h.elim

/-- One round more than there is room for nested calls is enough. -/
theorem Contract.respects_ending {rules : Rules}
    (hconstants : ∀ name v, Table.get? rules.natives name = some (.constant v) → v.Tame)
    (room : Nat) :
    ((Contract.ending rules.limit room).simulation fun _ h => h).Respects
      (rules.env (room + 1)) (rules.env (room + 1)) := by
  induction room with
  | zero =>
      refine Contract.ending_respects_of_executes ?_ hconstants
      intro f frame token _ _ hat k hk
      refine Holds.execute rfl hat hk fun hroom => ?_
      -- the limit is reached, so no body is executed
      have hfull : rules.limit ≤ k.machine.depth := hk.2.2
      exact absurd hfull (Nat.not_le_of_lt hroom)
  | succ room ih =>
      refine Contract.ending_respects_of_executes ?_ hconstants
      refine (Contract.ending_encloses rules room).executes rfl _ fun f hf k hk => ?_
      have hbody : ∀ s ∈ f.stmts, s.Fits Terms.tame := by
        cases hf with
        | function hstmts => exact fun s hs => (hstmts s hs).fits
      exact ih.evalBlock f.stmts hbody k hk

/-- Only tame values can be reached from the session. -/
structure Session.Tame (s : Session) : Prop where
  frame : Table.Each Value.Tame s.machine.frame
  heap : Table.Each Value.Tame s.machine.heap
  constants : ∀ name v, Table.get? s.rules.natives name = some (.constant v) → v.Tame

theorem Session.Tame.ends {s : Session} (hs : s.Tame) {op : Operation}
    (hop : op.Fits Terms.tame) : ∃ o, s.Ends op o := by
  have h := Contract.respects_ending hs.constants s.rules.limit
  have hrun := h.perform op hop ⟨s.machine, []⟩ ⟨hs.frame, hs.heap, Nat.le_add_left _ _⟩
  have hfulfils : (Contract.ending s.rules.limit s.rules.limit).Fulfils (fun _ => True)
      ⟨s.machine, []⟩ (s.perform (s.rules.limit + 1) op.perform) := hrun.fulfils
  refine ⟨_, fun hgaveUp => ?_, s.rules.limit + 1, rfl⟩
  rw [hgaveUp] at hfulfils
  exact hfulfils

theorem Session.tame_fresh (limit : Nat) : (({} : Session).setLimit limit).Tame where
  frame := .nil _
  heap := .nil _
  constants name v hget := absurd hget (Native.standard_constants name v)

/-- A program without loops in which the name of display methods does not occur ends, whether it
is evaluated or run, with every limit on nested calls. -/
theorem loop_free_program_ends (program : Program)
    (hloops : ∀ s ∈ program.statements, s.isLoop = false) (hdisplay : displayKey ∉ program.names)
    (limit : Nat) (args : List Text) :
    (∃ o, (({} : Session).setLimit limit).Ends (.evaluate program) o) ∧
      ∃ o, (({} : Session).setLimit limit).Ends (.run program args) o := by
  have hfits : ∀ s ∈ program.body, s.Fits Terms.tame := by
    intro s hs
    refine Stmt.Tame.fits fun p hp => ?_
    have hin : p ∈ program.statements := Stmt.mem_statementsAll hs hp
    exact ⟨hloops p hin, fun hname => hdisplay (List.mem_flatMap.mpr ⟨p, hin, hname⟩)⟩
  have hfresh := Session.tame_fresh limit
  exact ⟨hfresh.ends hfits,
    hfresh.ends ⟨hfits, fun _ _ => trivial⟩⟩

/-- A start that declares itself anew and a constructor that calls itself without end. -/
def Program.regress : Program where
  token := {}
  body := [
    .classDef "Node" [.func initKey ["self"] [.expr (.construct "Node" [] {}) {}] {}] {},
    .func "main" ["args"] [
      .func "main" ["args"] [.ret (.construct "Node" [] {}) {}] {},
      .ret (.call (.ident "main" {}) [.ident "args" {}] {}) {}] {}]

theorem regress_ends :
    (∀ s ∈ Program.regress.statements, s.isLoop = false) ∧ displayKey ∉ Program.regress.names ∧
      ∃ o, (({} : Session).setLimit 2000).Ends (.run .regress ["tea"]) o := by
  have hloops : ∀ s ∈ Program.regress.statements, s.isLoop = false := by
    simp [Program.statements, Program.regress, Stmt.statements, Stmt.statementsAll, Stmt.isLoop]
  have hdisplay : displayKey ∉ Program.regress.names := by decide
  exact ⟨hloops, hdisplay, (loop_free_program_ends _ hloops hdisplay 2000 ["tea"]).2⟩

end Script
