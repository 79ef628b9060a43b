import Script.Proofs.Operation
import Script.Proofs.Simulation.Contract

/-! # Properties throughout values

A value is taken together with everything nested in it. A property of single values holds
throughout a value if it holds of all its parts. The contract of this module carries such a
property through every run, for the variables of all active calls and for the heap. -/

namespace Script

mutual

/-- A value and all values nested in it. -/
def Value.parts : Value → List Value
  | v@(.array items) => v :: Value.partsAll items
  | v@(.object fields) => v :: Value.partsOfFields fields
  | v => [v]

def Value.partsAll : List Value → List Value
  | [] => []
  | v :: rest => v.parts ++ Value.partsAll rest

def Value.partsOfFields : List (Text × Value) → List Value
  | [] => []
  | (_, v) :: rest => v.parts ++ Value.partsOfFields rest

end

def Value.Throughout (P : Value → Prop) (v : Value) : Prop :=
  ∀ part ∈ v.parts, P part

theorem Value.forall_partsAll {P : Value → Prop} {items : List Value} :
    (∀ part ∈ Value.partsAll items, P part) ↔ ∀ v ∈ items, v.Throughout P := by
  induction items with
  | nil => simp [Value.partsAll]
  | cons v rest ih =>
      simp only [Value.partsAll, List.forall_mem_append, List.forall_mem_cons, ih]
      rfl

theorem Value.forall_partsOfFields {P : Value → Prop} {fields : List (Text × Value)} :
    (∀ part ∈ Value.partsOfFields fields, P part) ↔ Table.Each (Value.Throughout P) fields := by
  induction fields with
  | nil => simp [Value.partsOfFields, Table.Each]
  | cons entry rest ih =>
      obtain ⟨key, v⟩ := entry
      simp only [Value.partsOfFields, List.forall_mem_append, Table.Each, List.forall_mem_cons, ih]
      rfl

theorem Value.throughout_of_parts {P : Value → Prop} {v : Value} (h : v.parts = [v]) :
    v.Throughout P ↔ P v := by
  simp [Value.Throughout, h]

theorem Value.throughout_array {P : Value → Prop} {items : List Value} :
    (Value.array items).Throughout P ↔ P (.array items) ∧ ∀ v ∈ items, v.Throughout P := by
  rw [← Value.forall_partsAll]
  simp [Value.Throughout, Value.parts]

theorem Value.throughout_object {P : Value → Prop} {fields : Table Value} :
    (Value.object fields).Throughout P ↔
      P (.object fields) ∧ Table.Each (Value.Throughout P) fields := by
  rw [← Value.forall_partsOfFields]
  simp [Value.Throughout, Value.parts]

/-- A property that the evaluator cannot break by building values from others: only references,
functions and objects may be without it, and setting a property of an object keeps it. -/
structure Value.Robust (P : Value → Prop) : Prop where
  plain (v : Value) : v.kind ≠ .nameRef → v.kind ≠ .function → v.kind ≠ .object → P v
  insert (fields : Table Value) (key : Text) (v : Value) :
    P (.object fields) → P (.object (Table.insert key v fields))

/-- The terms under which a property holds throughout all values. -/
def Terms.throughout (P : Value → Prop) (Declarable : Text → Value → Prop) : Terms :=
  { Terms.free with Good := Value.Throughout P, Declarable := Declarable }

theorem Value.Robust.closed {P : Value → Prop} (hP : Value.Robust P)
    (Declarable : Text → Value → Prop) : (Terms.throughout P Declarable).Closed where
  null := (Value.throughout_of_parts rfl).mpr (hP.plain .null nofun nofun nofun)
  number x := (Value.throughout_of_parts rfl).mpr (hP.plain (.number x) nofun nofun nofun)
  string s := (Value.throughout_of_parts rfl).mpr (hP.plain (.string s) nofun nofun nofun)
  boolean b := (Value.throughout_of_parts rfl).mpr (hP.plain (.boolean b) nofun nofun nofun)
  array items := by
    have harray : P (.array items) := hP.plain (.array items) nofun nofun nofun
    simp only [Terms.throughout, Value.throughout_array, harray, true_and]
  fields h := (Value.throughout_object.mp h).2
  insert h _ hv := by
    obtain ⟨hobject, hfields⟩ := Value.throughout_object.mp h
    exact Value.throughout_object.mpr ⟨hP.insert _ _ _ hobject, hfields.insert _ hv⟩
  function _ _ _ := trivial

/-! ## Declarations -/

/-- What the execution of a statement declares, whatever marks the bodies get: a function with the
parameters, the body and the token of the statement, or a class with its name and its members. -/
def Stmt.Declares (name : Text) (v : Value) : Stmt → Prop
  | .func f params body t =>
    name = f ∧ ∃ id, v = .function ⟨f, params, some ⟨id, f, params, body⟩, t⟩
  | .classDef c members _ => name = c ∧ ∃ fields,
    Stmt.AddTo members [(nameKey, .string c)] fields ∧ v = .object fields
  | _ => False

section

variable {P : Value → Prop} {Declarable : Text → Value → Prop}

/-- Where values are restricted only by a property, expressions may do everything. -/
theorem Expr.fits_throughout (e : Expr) : e.Fits (Terms.throughout P Declarable) :=
  Expr.fits_of_assign (fun _ _ => trivial) (fun _ _ _ _ _ _ => trivial)
    fun _ _ _ _ _ _ _ => ⟨trivial, fun _ _ => trivial⟩

/-- Among statements, declarations alone ask for something then. -/
theorem Stmt.fits_throughout {s : Stmt}
    (h : ∀ p ∈ s.parts, ∀ name v, p.Declares name v → Declarable name v) :
    s.Fits (Terms.throughout P Declarable) := by
  intro p hp
  refine ⟨fun e _ => e.fits_throughout, ?_⟩
  cases p with
  | func f params body t => exact fun id => h _ hp _ _ ⟨rfl, id, rfl⟩
  | classDef c members t =>
      exact ⟨fun fields hfields => h _ hp _ _ ⟨rfl, fields, hfields, rfl⟩, fun _ _ _ => trivial⟩
  | _ => trivial

end

/-! ## Runs -/

/-- A property holds throughout the variables of all active calls, and every entry of the heap is
one that may be declared. -/
structure Moment.Within (P : Value → Prop) (Declarable : Text → Value → Prop) (k : Moment) :
    Prop where
  frame : Table.Each (Value.Throughout P) k.machine.frame
  waiting : ∀ frame ∈ k.waiting, Table.Each (Value.Throughout P) frame
  heap : ∀ entry ∈ k.machine.heap, Declarable entry.1 entry.2

/-- The contract to keep a property throughout all values. -/
def Contract.throughout {P : Value → Prop} {Declarable : Text → Value → Prop}
    (hP : Value.Robust P) (hgood : ∀ name v, Declarable name v → v.Throughout P) : Contract where
  toTerms := Terms.throughout P Declarable
  closed := hP.closed Declarable
  Inv := Moment.Within P Declarable
  Seen := Moment.Within P Declarable
  Step _ _ := True
  MayGiveUp := True
  seen h := h
  refl _ := trivial
  trans _ _ := trivial
  frame h := h.frame
  heap h := fun entry he => hgood _ _ (h.heap entry he)
  assign _ hv h := ⟨⟨h.frame.insert _ hv, h.waiting, h.heap⟩, trivial⟩
  declare hv h := by
    refine ⟨⟨h.frame, h.waiting, fun entry he => ?_⟩, trivial⟩
    rcases Table.mem_insert he with rfl | he
    · exact hv
    · exact h.heap entry he
  freshBody h := ⟨⟨h.frame, h.waiting, h.heap⟩, trivial⟩
  print _ h := ⟨⟨h.frame, h.waiting, h.heap⟩, trivial⟩

section

variable {P : Value → Prop} {Declarable : Text → Value → Prop} (hP : Value.Robust P)
  (hgood : ∀ name v, Declarable name v → v.Throughout P)

/-- A body starts with good values only, and hands none but good ones back. -/
theorem Contract.nested_throughout
    (hbodies : ∀ f : Function, (Value.function f).Throughout P →
      ∀ s ∈ f.stmts, s.Fits (Terms.throughout P Declarable))
    {rules : Rules} (hnatives : rules.natives = Native.standard) :
    (Contract.throughout hP hgood).Nested rules where
  entering hk _ hframe := ⟨hframe, List.forall_mem_cons.mpr ⟨hk.frame, hk.waiting⟩, hk.heap⟩
  leaving hk hm _ := ⟨⟨hk.frame, hk.waiting, hm.heap⟩, trivial⟩
  bodies := hbodies
  constants name v hget := absurd (hnatives ▸ hget) (Native.standard_constants name v)
  updates _ _ := trivial
  givesUp := trivial

end

end Script
