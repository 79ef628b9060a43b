import Script.Proofs.Sequence
import Script.Proofs.Shape

/-! # Declared classes

A class starts with the key for its own name, and its members are put in one after the other. So
under every name stands the last member that has it. The key for the name of the class is no
exception: a member of that name takes its place. -/

namespace Script

/-- One of the members of a class has a name. -/
def Stmt.Offers (members : List Stmt) (key : Text) : Prop :=
  ∃ params body t, .func key params body t ∈ members

@[simp] theorem Stmt.not_offers_nil {key : Text} : ¬ Stmt.Offers [] key := by
  rintro ⟨_, _, _, hmem⟩
  cases hmem

theorem Stmt.offers_cons {name key : Text} {params : List Text} {body rest : List Stmt}
    {t : Token} :
    Stmt.Offers (.func name params body t :: rest) key ↔ name = key ∨ Stmt.Offers rest key := by
  constructor
  · rintro ⟨params', body', t', hmem⟩
    rcases List.mem_cons.mp hmem with heq | hmem
    · cases heq
      exact .inl rfl
    · exact .inr ⟨params', body', t', hmem⟩
  · rintro (rfl | ⟨params', body', t', hmem⟩)
    · exact ⟨params, body, t, List.mem_cons_self⟩
    · exact ⟨params', body', t', List.mem_cons_of_mem _ hmem⟩

/-- Of several members with one name, one is the last. -/
theorem Stmt.Offers.exists_last {members : List Stmt} {key : Text} (h : Stmt.Offers members key) :
    ∃ before params body t after,
      members = before ++ .func key params body t :: after ∧ ¬ Stmt.Offers after key := by
  induction members with
  | nil => exact absurd h Stmt.not_offers_nil
  | cons s rest ih =>
      by_cases hrest : Stmt.Offers rest key
      · obtain ⟨before, params, body, t, after, rfl, hlast⟩ := ih hrest
        exact ⟨s :: before, params, body, t, after, rfl, hlast⟩
      · obtain ⟨params, body, t, hmem⟩ := h
        rcases List.mem_cons.mp hmem with rfl | hmem
        · exact ⟨[], params, body, t, rest, rfl, hrest⟩
        · exact absurd ⟨params, body, t, hmem⟩ hrest

/-! ## One member after the other -/

namespace Stmt.AddTo

variable {members : List Stmt} {fields final : Table Value} {key : Text}

theorem get?_of_not_offers (h : AddTo members fields final) (hkey : ¬ Offers members key) :
    Table.get? final key = Table.get? fields key := by
  induction members generalizing fields with
  | nil =>
      cases h
      rfl
  | cons s rest ih =>
      cases s with
      | func name params body t =>
          obtain ⟨id, h⟩ := h
          rw [offers_cons, not_or] at hkey
          rw [ih h hkey.2, Table.get?_insert_of_ne hkey.1]
      | _ => cases h

theorem contains_iff (h : AddTo members fields final) :
    Table.contains final key ↔ Table.contains fields key ∨ Offers members key := by
  induction members generalizing fields with
  | nil =>
      cases h
      simp
  | cons s rest ih =>
      cases s with
      | func name params body t =>
          obtain ⟨id, h⟩ := h
          rw [ih h, offers_cons, Table.contains, Table.get?_insert]
          by_cases hname : name = key
          · simp [hname]
          · simp [hname, Table.contains]
      | _ => cases h

theorem later {before : List Stmt} (h : AddTo (before ++ members) fields final) :
    ∃ fields', AddTo members fields' final := by
  induction before generalizing fields with
  | nil => exact ⟨fields, h⟩
  | cons s before ih =>
      cases s with
      | func name params body t =>
          obtain ⟨id, h⟩ := h
          exact ih h
      | _ => cases h

theorem get?_last {before after : List Stmt} {params : List Text} {body : List Stmt} {t : Token}
    (h : AddTo (before ++ .func key params body t :: after) fields final)
    (hlast : ¬ Offers after key) :
    ∃ id, Table.get? final key =
      some (.function ⟨key, params, some ⟨id, key, params, body⟩, t⟩) := by
  obtain ⟨fields', id, h⟩ := h.later
  refine ⟨id, ?_⟩
  rw [h.get?_of_not_offers hlast, Table.get?_insert, if_pos rfl]

end Stmt.AddTo

/-- A table is that of a class with the given name and members: it has the key for the name of the
class and the names of the members, and under each of these the last member so named. The name of
the class is kept unless a member has its key. -/
structure Stmt.Fills (name : Text) (members : List Stmt) (fields : Table Value) : Prop where
  keys (key : Text) : Table.contains fields key ↔ key = nameKey ∨ Stmt.Offers members key
  method {before after : List Stmt} {key : Text} {params : List Text} {body : List Stmt}
    {t : Token} : members = before ++ .func key params body t :: after →
    ¬ Stmt.Offers after key → ∃ f, Table.get? fields key = some (.function f) ∧
      f.name = key ∧ f.params = params ∧ f.stmts = body ∧ f.token = t
  named : ¬ Stmt.Offers members nameKey →
    Table.get? fields nameKey = some (.string name) ∧ className fields = name
  nameless : Stmt.Offers members nameKey → className fields = []

theorem Stmt.AddTo.fills {name : Text} {members : List Stmt} {fields : Table Value}
    (h : Stmt.AddTo members [(nameKey, .string name)] fields) : Stmt.Fills name members fields := by
  have hstart : Table.get? [(nameKey, Value.string name)] nameKey = some (.string name) :=
    if_pos rfl
  refine ⟨fun key => ?_, fun hsplit hlast => ?_, fun hname => ?_, fun hname => ?_⟩
  · rw [h.contains_iff]
    by_cases hkey : key = nameKey
    · simp [hkey, Table.contains, hstart]
    · simp [hkey, Table.contains, Table.get?, Ne.symm hkey]
  · subst hsplit
    obtain ⟨id, hget⟩ := h.get?_last hlast
    exact ⟨_, hget, rfl, rfl, rfl, rfl⟩
  · have hget := (h.get?_of_not_offers hname).trans hstart
    exact ⟨hget, by rw [className, hget]⟩
  · obtain ⟨before, params, body, t, after, rfl, hlast⟩ := hname.exists_last
    obtain ⟨id, hget⟩ := h.get?_last hlast
    rw [className, hget]

/-! ## Execution -/

/-- A class with nothing but functions in it is built to the end. Every member gets a body of its
own. -/
theorem Env.addMembers_of_isFunc (name : Text) (token : Token) {members : List Stmt}
    (hmembers : ∀ s ∈ members, s.isFunc = true) (fields : Table Value) (m : Machine) :
    ∃ final, Stmt.AddTo members fields final ∧
      (Env.addMembers name token members fields : Eval (Table Value)) m =
        .done final { m with nextBody := m.nextBody + members.length } := by
  induction members generalizing fields m with
  | nil => exact ⟨fields, rfl, rfl⟩
  | cons s rest ih =>
      obtain ⟨hs, hrest⟩ := List.forall_mem_cons.mp hmembers
      cases s with
      | func f params body t =>
          let id := BodyId.declared m.nextBody
          let member : Value := .function ⟨f, params, some ⟨id, f, params, body⟩, t⟩
          obtain ⟨final, hadd, hrun⟩ :=
            ih hrest (Table.insert f member fields) { m with nextBody := m.nextBody + 1 }
          refine ⟨final, ⟨id, hadd⟩, ?_⟩
          simp only [addMembers, makeFunction, Stmt.copyAll_eq]
          refine Eq.trans hrun ?_
          rw [List.length_cons, Nat.add_assoc, Nat.add_comm 1]
      | _ => cases hs

/-- This holds of lists without an end too, which the parser goes on with by itself. -/
theorem Program.shaped_of_ok {tokens : List Token} {program : Program}
    (h : Program.parse tokens = .ok program) : program.Shaped := by
  simp only [Program.parse] at h
  split at h
  next body rest hrun =>
    cases h
    obtain ⟨w, -, hbody, -⟩ := Parser.program_sound (Parser.statement_sound _) _ hrun
    exact hbody.shaped
  next => cases h

/-- A class of a parsed program is declared whenever it is executed, and changes nothing else. What
is declared has the keys and the functions that its members say, of which the last counts, and the
name of the class if none of them has its key. -/
theorem class_filled_by_members {tokens : List Token} {program : Program}
    (hparse : Program.parse tokens = .ok program) {name : Text} {members : List Stmt} {t : Token}
    (hclass : .classDef name members t ∈ program.statements) (s : Session) (rounds : Nat) :
    ∃ fields, Stmt.Fills name members fields ∧
      s.perform rounds (·.evalStmt (.classDef name members t)) =
        .done .normal
          { s.machine with
            heap := Table.insert name (.object fields) s.machine.heap
            nextBody := s.machine.nextBody + members.length } := by
  have hmembers : ∀ s ∈ members, s.isFunc = true :=
    fun s hs => (Program.shaped_of_ok hparse).members hclass hs
  obtain ⟨fields, hadd, hrun⟩ :=
    Env.addMembers_of_isFunc name t hmembers [(nameKey, .string name)] s.machine
  refine ⟨fields, hadd.fills, ?_⟩
  rw [Session.perform, Env.evalStmt, Env.declareClass, bind_assoc, Eval.bind_of_done hrun]
  rfl

/-- Of two members called `f` the later is the method. -/
theorem repeated_method_replaced :
    let t (kind : Token.Kind) : Token := { kind }
    let name (value : Text) : Token := { kind := .identifier, value }
    let tokens := [t .classWord, name "C", t .openBrace,
      t .funcWord, name "f", t .openParen, t .closeParen, t .openBrace, t .closeBrace,
      t .funcWord, name "f", t .openParen, name "x", t .closeParen, t .openBrace, t .closeBrace,
      t .closeBrace, t .endOfInput]
    let members : List Stmt := [.func "f" [] [] (name "f"), .func "f" ["x"] [] (name "f")]
    let program : Program := ⟨t .classWord, [.classDef "C" members (name "C")]⟩
    Program.parse tokens = .ok program ∧ .classDef "C" members (name "C") ∈ program.statements ∧
      ∃ fields, ({} : Session).perform 0 (·.evalStmt (.classDef "C" members (name "C"))) =
          .done .normal { heap := Table.insert "C" (.object fields) [], nextBody := 2 } ∧
        className fields = "C" ∧ (∀ key, Table.contains fields key ↔ key = nameKey ∨ key = "f") ∧
        ∃ f, Table.get? fields "f" = some (.function f) ∧ f.params = ["x"] := by
  intro t name tokens members program
  have hparse : Program.parse tokens = .ok program := rfl
  have hclass : .classDef "C" members (name "C") ∈ program.statements := List.mem_cons_self
  obtain ⟨fields, hfills, hrun⟩ := class_filled_by_members hparse hclass {} 0
  have hoffers (key : Text) : Stmt.Offers members key ↔ key = "f" := by
    rw [Stmt.offers_cons, Stmt.offers_cons]
    simp [eq_comm]
  have hname : ¬ Stmt.Offers members nameKey := by
    rw [hoffers]
    decide
  obtain ⟨f, hget, -, hparams, -⟩ :=
    hfills.method (members.take_append_drop 1).symm Stmt.not_offers_nil
  refine ⟨hparse, hclass, fields, hrun, (hfills.named hname).2, fun key => ?_, f, hget, hparams⟩
  rw [hfills.keys, hoffers]

/-- A member called `~name` leaves the class without its name. -/
theorem class_name_replaced_by_member :
    let t (kind : Token.Kind) : Token := { kind }
    let name (value : Text) : Token := { kind := .identifier, value }
    let tokens := [t .classWord, name "C", t .openBrace, t .funcWord, name nameKey, t .openParen,
      name selfName, t .closeParen, t .openBrace, t .closeBrace, t .closeBrace, t .endOfInput]
    let declaration : Stmt := .classDef "C" [.func nameKey [selfName] [] (name nameKey)] (name "C")
    Program.parse tokens = .ok ⟨t .classWord, [declaration]⟩ ∧
      ∃ fields f, ({} : Session).perform 0 (·.evalStmt declaration) =
          .done .normal { heap := [("C", .object fields)], nextBody := 1 } ∧
        Table.get? fields nameKey = some (.function f) ∧ className fields = [] :=
  ⟨rfl, _, _, rfl, rfl, rfl⟩

end Script
