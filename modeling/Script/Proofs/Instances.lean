import Script.Parser
import Script.Proofs.Assignment

/-! # Instances of classes

A constructor works on a copy of its class, which it knows as `self`, and the instance is what has
that name at the end. An assignment to a part of the copy adds a property or changes one, but never
removes any. So the instance has all keys of the class, as long as neither a parameter nor an
assignment gives the name to something else. -/

namespace Script

/-- The variable that an assignment sets as a whole. -/
def Expr.wholeTarget? : Expr → Option Text
  | .assign target _ _ => target.name?
  | _ => none

/-- The variables that the assignments in an expression set as a whole. -/
def Expr.overwritten (e : Expr) : List Text :=
  e.parts.filterMap Expr.wholeTarget?

/-- The variables that the assignments in a statement set as a whole, apart from those in the bodies
of declarations. -/
def Stmt.overwritten (s : Stmt) : List Text :=
  s.parts.flatMap fun p => p.exprs.flatMap Expr.overwritten

/-! ## Keeping an instance -/

/-- An object with all keys of a class. -/
def Value.IsInstanceOf (fields : Table Value) (v : Value) : Prop :=
  ∃ own, v = .object own ∧ ∀ key, Table.contains fields key → Table.contains own key

theorem Value.IsInstanceOf.refl (fields : Table Value) :
    (Value.object fields).IsInstanceOf fields :=
  ⟨fields, rfl, fun _ hkey => hkey⟩

theorem Value.Updated.isInstanceOf {path : List Access} {r old new : Value} {fields : Table Value}
    (h : Updated path r old new) (hpath : path ≠ []) (hold : old.IsInstanceOf fields) :
    new.IsInstanceOf fields := by
  obtain ⟨own, rfl, hkeys⟩ := hold
  obtain ⟨own', hnew, hown'⟩ := h.keys [] own (by simpa using hpath) rfl
  refine ⟨own', Option.some.inj hnew, fun key hkey => ?_⟩
  exact (hown' key).mpr (.inl (hkeys key hkey))

/-- A variable holds an instance of a class. -/
def Frame.HasInstance (x : Text) (fields : Table Value) (frame : Frame) : Prop :=
  ∃ v, Table.get? frame x = some v ∧ v.IsInstanceOf fields

theorem Frame.HasInstance.insert_of_ne {x name : Text} {fields : Table Value} {frame : Frame}
    (h : frame.HasInstance x fields) (hname : name ≠ x) (v : Value) :
    Frame.HasInstance x fields (Table.insert name v frame) := by
  obtain ⟨w, hget, hw⟩ := h
  exact ⟨w, by rw [Table.get?_insert_of_ne hname, hget], hw⟩

/-- Arguments leave an instance alone if no parameter has its name. -/
theorem Frame.HasInstance.bind {x : Text} {fields : Table Value} {params : List Text}
    (hx : x ∉ params) {frame : Frame} (h : frame.HasInstance x fields) (args : List Value) :
    Frame.HasInstance x fields (Frame.bind frame params args) := by
  induction params generalizing frame args with
  | nil => exact h
  | cons name params ih =>
      cases args with
      | nil => exact h
      | cons v args =>
          rw [List.mem_cons, not_or] at hx
          exact ih hx.2 (h.insert_of_ne (Ne.symm hx.1) v) args

/-- The terms that allow everything but to set one variable as a whole. -/
def Terms.retaining (x : Text) : Terms :=
  { Terms.free with Assignable := (· ≠ x) }

theorem Expr.fits_retaining {x : Text} {e : Expr} (h : x ∉ e.overwritten) :
    e.Fits (Terms.retaining x) := by
  apply Expr.fits_of_assign (fun _ _ => trivial)
  · rintro target value t name hp hplace rfl
    obtain ⟨token, rfl⟩ := Expr.eq_of_whole hplace
    exact h (List.mem_filterMap.mpr ⟨_, hp, rfl⟩)
  · exact fun _ _ _ _ _ _ _ => ⟨trivial, fun _ _ => trivial⟩

theorem Stmt.fits_retaining {x : Text} {s : Stmt} (h : x ∉ s.overwritten) :
    s.Fits (Terms.retaining x) := by
  refine Stmt.fits_of_exprs (fun _ _ => trivial) (fun _ _ => trivial) trivial fun p hp e he => ?_
  apply Expr.fits_retaining
  intro hx
  exact h (List.mem_flatMap.mpr ⟨p, hp, List.mem_flatMap.mpr ⟨e, he, hx⟩⟩)

/-- The contract to keep an instance of a class in a variable of the running frame. -/
def Contract.retaining (x : Text) (fields : Table Value) : Contract where
  toTerms := Terms.retaining x
  closed := by constructor <;> simp [Terms.retaining, Terms.free, Table.Each, Terms.At]
  Inv k := Frame.HasInstance x fields k.machine.frame
  Seen _ := True
  Step _ _ := True
  MayGiveUp := True
  seen _ := trivial
  refl _ := trivial
  trans _ _ := trivial
  frame _ _ _ := trivial
  heap _ _ _ := trivial
  assign hname _ hk := ⟨hk.insert_of_ne hname _, trivial⟩
  declare _ hk := ⟨hk, trivial⟩
  freshBody hk := ⟨hk, trivial⟩
  print _ hk := ⟨hk, trivial⟩

section

variable {x : Text} {fields : Table Value}

/-- Parts may be replaced, also in the variable that has to keep its instance. -/
theorem Env.store_retaining {name : Text} {token : Token} {steps : List Step} {v : Value}
    (hsteps : steps ≠ []) (k : Moment) (hk : (Contract.retaining x fields).Inv k) :
    (Contract.retaining x fields).Holds (fun _ => True) (Env.store name token steps v)
      (Env.store name token steps v) k := by
  have htraced : Contract.free.Holds (fun _ => True) (Env.store name token steps v)
      (Env.store name token steps v) k :=
    (Contract.free.simulation fun _ h => h).update trivial hsteps
      (fun _ _ => ⟨fun _ _ => trivial, fun _ _ _ => trivial⟩) trivial (fun _ _ => trivial) k trivial
  refine ⟨htraced.outcome_eq, fun _ _ => trivial, ?_⟩
  rcases Eval.store_cases name token steps v k.machine with
    ⟨old, new, path, hget, -, hleads, hupdated, hstore⟩ | ⟨f, hstore, -⟩
  · rw [hstore]
    refine ⟨trivial, ?_, trivial⟩
    by_cases hname : name = x
    · subst hname
      obtain ⟨w, hw, hinstance⟩ := hk
      obtain rfl : old = w := Option.some.inj (hget.symm.trans hw)
      have hpath : path ≠ [] := by
        rintro rfl
        cases hleads
        exact hsteps rfl
      refine ⟨new, ?_, hupdated.isInstanceOf hpath hinstance⟩
      rw [Table.get?_insert, if_pos rfl]
    · exact Frame.HasInstance.insert_of_ne hk hname new
  · rw [hstore]
    exact ⟨trivial, hk, trivial⟩

variable (x fields) in
def Simulation.retaining : Simulation Traced Eval where
  toEffects := (Contract.retaining x fields).effects
  update _ hsteps _ _ _ := Env.store_retaining hsteps

/-- Bodies have frames of their own, so that nothing has to be asked of them. -/
theorem Contract.retaining_encloses_free (rules : Rules) :
    (Contract.retaining x fields).Encloses Contract.free rules where
  entering _ _ _ := trivial
  leaving hk _ _ := ⟨hk, trivial⟩

theorem Simulation.spares_retaining : (Simulation.retaining x fields).Spares 0 := by
  intro α Q y hy k _
  rw [hy rfl]
  exact Contract.Holds.single trivial

theorem Simulation.respects_retaining (rules : Rules) (n : Nat) :
    (Simulation.retaining x fields).Respects (rules.env n) (rules.env n) := by
  have hexec : (Simulation.retaining x fields).Executes (rules.env n) (rules.env n) := by
    intro f frame token _ hframe hat k hk
    refine Contract.Holds.execute rfl hat hk fun hroom => ?_
    exact (Contract.retaining_encloses_free rules).inside
      (fun k _ => Contract.runBody_free rules n f.stmts k) hframe hk hroom
  exact hexec.respects Simulation.spares_retaining rfl rfl fun _ _ _ => trivial

end

/-- A body that does not set a variable as a whole keeps an instance in it. -/
theorem Frame.HasInstance.run {x : Text} {fields : Table Value} {body : List Stmt}
    (hbody : ∀ s ∈ body, x ∉ s.overwritten) {rules : Rules} {rounds : Nat} {m m' : Machine}
    {flow : Flow} (h : m.frame.HasInstance x fields)
    (hrun : (runBody rules rounds body : Eval Flow) m = .done flow m') :
    m'.frame.HasInstance x fields := by
  have hfits : ∀ s ∈ body, s.Fits (Terms.retaining x) :=
    fun s hs => Stmt.fits_retaining (hbody s hs)
  have hholds := Simulation.runBody Simulation.spares_retaining
    (Simulation.respects_retaining rules) hfits rounds ⟨m, []⟩ h
  have hfulfils := hholds.fulfils
  rw [hrun] at hfulfils
  exact hfulfils.2.1

/-! ## Construction -/

/-- A function that has a result has run its body to the end, and gives the frame at that end. -/
theorem Env.execute_eq_done {env : Env} {f : Function} {frame final : Frame} {token : Token}
    {v : Value} {m m' : Machine} (h : env.execute f frame token m = .done (v, final) m') :
    ∃ flow m₁, env.run f.stmts { m with frame := frame, depth := m.depth + 1 } = .done flow m₁ ∧
      final = m₁.frame := by
  obtain ⟨d, m₀, hdepth, h⟩ := Eval.bind_eq_done_iff.mp h
  cases hdepth
  split at h
  · cases h
  · obtain ⟨⟨flow, last⟩, m₂, hbody, h⟩ := Eval.bind_eq_done_iff.mp h
    cases h
    simp only [Evaluation.inFrame, Eval.inFrame] at hbody
    split at hbody
    next a m₁ hrun =>
      cases hbody
      exact ⟨flow, m₁, hrun, rfl⟩
    next => cases hbody
    next => cases hbody

/-- A class is looked up in the heap, and its constructor in the class. -/
theorem Env.template_eq_done {name : Text} {count : Nat} {token : Token} {fields : Table Value}
    {init : Option Function} {m m' : Machine}
    (h : (Env.template name count token : Eval _) m = .done (fields, init) m') :
    m' = m ∧ Table.get? m.heap name = some (.object fields) ∧
      ∀ f, init = some f → Table.get? fields initKey = some (.function f) := by
  have hlookup : (Evaluation.declared? name : Eval (Option Value)) m =
      .done (Table.get? m.heap name) m := rfl
  rw [Env.template, Eval.bind_of_done hlookup] at h
  cases hget : Table.get? m.heap name with
  | none =>
      rw [hget] at h
      cases h
  | some v =>
      rw [hget] at h
      cases v with
      | object fields' =>
          dsimp only at h
          cases hinit : Table.get? fields' initKey with
          | none =>
              rw [hinit] at h
              cases h
              exact ⟨rfl, rfl, by simp⟩
          | some w =>
              rw [hinit] at h
              cases w with
              | function f =>
                  dsimp only at h
                  split_ifs at h
                  cases h
                  exact ⟨rfl, rfl, by simp [hinit]⟩
              | _ =>
                  cases h
                  exact ⟨rfl, rfl, by simp⟩
      | _ => cases h

/-- What a constructor makes of a copy of its class is an instance of the class, if the name of the
copy is neither one of the other parameters nor set as a whole. -/
theorem Env.instantiate_isInstanceOf {rules : Rules} {rounds : Nat} {fields : Table Value}
    {init : Function} {args : List Value} {token : Token} {v : Value} {m m' : Machine}
    (hparams : selfName ∉ init.params.tail) (hbody : ∀ s ∈ init.stmts, selfName ∉ s.overwritten)
    (h : (rules.env rounds : Env).instantiate fields init args token m = .done v m') :
    v.IsInstanceOf fields := by
  obtain ⟨⟨result, final⟩, m₀, hexecute, h⟩ := Eval.bind_eq_done_iff.mp h
  cases h
  obtain ⟨flow, m₁, hrun, rfl⟩ := Env.execute_eq_done hexecute
  have hcopy : Frame.HasInstance selfName fields [(selfName, .object fields)] :=
    ⟨.object fields, if_pos rfl, .refl fields⟩
  have hstart := hcopy.bind hparams args
  obtain ⟨w, hget, hw⟩ := hstart.run hbody hrun
  rw [hget]
  exact hw

/-- Where `new` has a result, its class is in the heap at the start, and the result is an instance
of the class as it is there. The constructor may have any parameters and do anything, as long as no
parameter after the first is called `self` and no assignment sets `self` as a whole. -/
theorem constructed_value_has_class_keys (s : Session) (rounds : Nat) {name : Text}
    {args : List Expr} {t : Token} {v : Value} {m : Machine}
    (h : s.perform rounds (·.evalExpr (.construct name args t)) = .done v m) :
    ∃ fields, Table.get? s.machine.heap name = some (.object fields) ∧
      ((∀ init, Table.get? fields initKey = some (.function init) →
          selfName ∉ init.params.tail ∧ ∀ stmt ∈ init.stmts, selfName ∉ stmt.overwritten) →
        v.IsInstanceOf fields) := by
  rw [Session.perform, Env.evalExpr] at h
  obtain ⟨⟨fields, init⟩, m₀, htemplate, h⟩ := Eval.bind_eq_done_iff.mp h
  obtain ⟨rfl, hget, hinit⟩ := Env.template_eq_done htemplate
  refine ⟨fields, hget, fun hsafe => ?_⟩
  cases init with
  | none =>
      cases h
      exact .refl fields
  | some init =>
      obtain ⟨values, m₁, -, hinstantiate⟩ := Eval.bind_eq_done_iff.mp h
      obtain ⟨hparams, hbody⟩ := hsafe init (hinit init rfl)
      exact Env.instantiate_isInstanceOf hparams hbody hinstantiate

/-- A constructor that replaces its own entry in the instance by its argument. -/
theorem instance_with_replaced_constructor :
    let set : Expr := .assign (.member (.ident selfName {}) initKey {}) (.ident "x" {}) {}
    let init : Function := ⟨initKey, ["me", "x"],
      some ⟨.declared 0, initKey, ["me", "x"], [.expr set {}, .ret .hole {}]⟩, {}⟩
    let fields : Table Value := [(initKey, .function init), (nameKey, .string "C")]
    let s : Session := { machine := { heap := [("C", .object fields)] } }
    selfName ∉ init.params.tail ∧ (∀ stmt ∈ init.stmts, selfName ∉ stmt.overwritten) ∧
      ∃ v m, s.perform 1 (·.evalExpr (.construct "C" [.null {}] {})) = .done v m ∧
        v.IsInstanceOf fields := by
  intro set init fields s
  have hparams : selfName ∉ init.params.tail := by decide
  have hbody : ∀ stmt ∈ init.stmts, selfName ∉ stmt.overwritten := by decide
  obtain ⟨v, m, hnew⟩ : ∃ v m, s.perform 1 (·.evalExpr (.construct "C" [.null {}] {})) =
      .done v m := ⟨_, _, rfl⟩
  obtain ⟨fields', hget, hinstance⟩ := constructed_value_has_class_keys s 1 hnew
  obtain rfl : fields = fields' := Value.object.inj (Option.some.inj hget)
  refine ⟨hparams, hbody, v, m, hnew, hinstance fun f hf => ?_⟩
  obtain rfl : init = f := Value.function.inj (Option.some.inj hf)
  exact ⟨hparams, hbody⟩

/-- With a second parameter called `self`, the constructor gives its argument back. -/
theorem argument_in_place_of_instance :
    let t (kind : Token.Kind) : Token := { kind }
    let name (value : Text) : Token := { kind := .identifier, value }
    let tokens := [t .classWord, name "C", t .openBrace, t .funcWord, name initKey, t .openParen,
      name "me", t .comma, name selfName, t .closeParen, t .openBrace, t .closeBrace,
      t .closeBrace, t .newWord, name "C", t .openParen, t .null, t .closeParen, t .endOfInput]
    let declaration : Stmt :=
      .classDef "C" [.func initKey ["me", selfName] [] (name initKey)] (name "C")
    let construction : Expr := .construct "C" [.null (t .null)] (t .newWord)
    Program.parse tokens =
        .ok ⟨t .classWord, [declaration, .expr construction (t .newWord)]⟩ ∧
      ∃ fields m, ({} : Session).perform 0 (·.evalStmt declaration) = .done .normal m ∧
        Table.get? m.heap "C" = some (.object fields) ∧
        ({ machine := m } : Session).perform 1 (·.evalExpr construction) = .done .null m ∧
        ¬ Value.null.IsInstanceOf fields := by
  refine ⟨rfl, _, _, rfl, rfl, rfl, ?_⟩
  rintro ⟨own, hobject, -⟩
  cases hobject

end Script
