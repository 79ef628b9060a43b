import Script.Proofs.Memory.Host
import Script.Proofs.Positions
import Script.Proofs.Simulation.Contract

/-! # Assignments to parts of variables

A value is seen through its access paths. Assigning to a chain of indexes and properties replaces
what is at one path: all paths beside it are read as before, and so are the lengths of arrays and
the keys of objects on the way. An assignment that fails has changed nothing. -/

namespace Script

open Evaluation

/-! ## Access paths -/

/-- One step into a value. -/
inductive Access where
  | item (position : Nat)
  | property (name : Text)

namespace Value

/-- The part of a value that a step leads to. -/
def part? : Value → Access → Option Value
  | .array items, .item n => items[n]?
  | .object fields, .property key => Table.get? fields key
  | _, _ => none

/-- What a path leads to. -/
def at? : Value → List Access → Option Value
  | v, [] => some v
  | v, a :: path => (v.part? a).bind (·.at? path)

theorem at?_concat (v : Value) (path : List Access) (a : Access) :
    v.at? (path ++ [a]) = (v.at? path).bind (·.part? a) := by
  induction path generalizing v with
  | nil => simp [at?]
  | cons b path ih =>
      simp only [List.cons_append, at?]
      cases v.part? b with
      | none => rfl
      | some w => exact ih w

/-! ## One part replaced -/

/-- Two values that differ in the part `a` only, which the second has as given. -/
structure Swapped (a : Access) (part old new : Value) : Prop where
  self : new.part? a = some part
  other : ∀ b ≠ a, new.part? b = old.part? b
  items : ∀ items, old = .array items → ∃ items', new = .array items' ∧
    items'.length = items.length
  keys : ∀ fields, old = .object fields → ∃ fields', new = .object fields' ∧
    ∀ key, Table.contains fields' key = true ↔
      Table.contains fields key = true ∨ a = .property key

theorem swapped_item {items : List Value} {n : Nat} (h : n < items.length) (part : Value) :
    Swapped (.item n) part (.array items) (.array (items.set n part)) where
  self := by simp [part?, h]
  other b hb := by
    cases b with
    | item k =>
        have hne : n ≠ k := fun hk => hb (by rw [hk])
        simp [part?, List.getElem?_set_ne hne]
    | property key => rfl
  items _ heq := by
    cases heq
    exact ⟨_, rfl, List.length_set⟩
  keys _ heq := by cases heq

theorem swapped_property (fields : Table Value) (key : Text) (part : Value) :
    Swapped (.property key) part (.object fields) (.object (Table.insert key part fields)) where
  self := by simp [part?, Table.get?_insert]
  other b hb := by
    cases b with
    | item k => rfl
    | property name =>
        have hne : key ≠ name := fun hk => hb (by rw [hk])
        simp [part?, Table.get?_insert_of_ne hne]
  items _ heq := by cases heq
  keys _ heq := by
    cases heq
    refine ⟨_, rfl, fun name => ?_⟩
    simp only [Table.contains, Table.get?_insert, Access.property.injEq]
    split <;> simp_all

section

variable {a : Access} {part old new : Value} (h : Swapped a part old new)
include h

theorem Swapped.at?_self (q : List Access) : new.at? (a :: q) = part.at? q := by
  simp [at?, h.self]

theorem Swapped.at?_other {b : Access} (hb : b ≠ a) (q : List Access) :
    new.at? (b :: q) = old.at? (b :: q) := by
  simp [at?, h.other b hb]

end

/-! ## Updates -/

/-- The value `new` is `old` with `r` at the end of a path. What the path does not lead through is
the same, arrays keep their lengths, and objects keep their keys, but for one that the last step may
add. -/
structure Updated (path : List Access) (r old new : Value) : Prop where
  read : new.at? path = some r
  apart : ∀ q, ¬ path <+: q → ¬ q <+: path → new.at? q = old.at? q
  items : ∀ q items, ¬ path <+: q → old.at? q = some (.array items) →
    ∃ items', new.at? q = some (.array items') ∧ items'.length = items.length
  keys : ∀ q fields, ¬ path <+: q → old.at? q = some (.object fields) →
    ∃ fields', new.at? q = some (.object fields') ∧
      ∀ key, Table.contains fields' key = true ↔
        Table.contains fields key = true ∨ q ++ [.property key] = path

theorem updated_nil (r old : Value) : Updated [] r old r where
  read := rfl
  apart _ h := absurd List.nil_prefix h
  items _ _ h := absurd List.nil_prefix h
  keys _ _ h := absurd List.nil_prefix h

section

variable {a : Access} {path : List Access} {r item part old new : Value}
  (hswap : Swapped a part old new) (hitem : path = [] ∨ old.part? a = some item)
  (h : Updated path r item part)
include hitem

/-- Only a last step leads to a part that was not there. -/
theorem at?_of_part {q : List Access} (hq : ¬ path <+: q) : old.at? (a :: q) = item.at? q := by
  have hpart : old.part? a = some item := hitem.resolve_left fun hnil => hq (by simp [hnil])
  simp [at?, hpart]

include hswap h

theorem Updated.cons_apart {q : List Access} (hq : ¬ a :: path <+: q) (hq' : ¬ q <+: a :: path) :
    new.at? q = old.at? q := by
  cases q with
  | nil => exact absurd List.nil_prefix hq'
  | cons b q =>
      by_cases hb : b = a
      · subst hb
        rw [List.cons_prefix_cons, and_iff_right rfl] at hq hq'
        rw [hswap.at?_self, at?_of_part hitem hq, h.apart q hq hq']
      · exact hswap.at?_other hb q

theorem Updated.cons_items {q : List Access} {items : List Value} (hq : ¬ a :: path <+: q)
    (hitems : old.at? q = some (.array items)) :
    ∃ items', new.at? q = some (.array items') ∧ items'.length = items.length := by
  cases q with
  | nil =>
      obtain ⟨items', rfl, hlength⟩ := hswap.items items (Option.some.inj hitems)
      exact ⟨items', rfl, hlength⟩
  | cons b q =>
      by_cases hb : b = a
      · subst hb
        rw [List.cons_prefix_cons, and_iff_right rfl] at hq
        rw [hswap.at?_self]
        exact h.items q items hq (at?_of_part hitem hq ▸ hitems)
      · exact ⟨items, (hswap.at?_other hb q).trans hitems, rfl⟩

theorem Updated.cons_keys {q : List Access} {fields : Table Value} (hq : ¬ a :: path <+: q)
    (hfields : old.at? q = some (.object fields)) :
    ∃ fields', new.at? q = some (.object fields') ∧
      ∀ key, Table.contains fields' key = true ↔
        Table.contains fields key = true ∨ q ++ [.property key] = a :: path := by
  cases q with
  | nil =>
      obtain rfl := Option.some.inj hfields
      obtain ⟨fields', rfl, hkeys⟩ := hswap.keys fields rfl
      refine ⟨fields', rfl, fun key => (hkeys key).trans ?_⟩
      rcases hitem with rfl | hpart
      · rw [List.nil_append, List.cons.injEq, and_iff_left rfl, eq_comm (a := a)]
      · -- a part that is there already adds no key
        have hkey : a = .property key → Table.contains fields key = true := by
          rintro rfl
          exact Option.isSome_of_eq_some hpart
        constructor
        · exact fun hin => .inl (hin.elim id hkey)
        · exact fun hin => hin.imp id fun heq => (List.cons.inj heq).1.symm
  | cons b q =>
      by_cases hb : b = a
      · subst hb
        rw [List.cons_prefix_cons, and_iff_right rfl] at hq
        obtain ⟨fields', hfields', hkeys⟩ :=
          h.keys q fields hq (at?_of_part hitem hq ▸ hfields)
        refine ⟨fields', (hswap.at?_self q).trans hfields', fun key => ?_⟩
        simpa using hkeys key
      · refine ⟨fields, (hswap.at?_other hb q).trans hfields, fun key => ?_⟩
        simp [hb]

/-- An update of a part is an update of the whole. The part may be new if it is the last. -/
theorem Updated.cons : Updated (a :: path) r old new where
  read := (hswap.at?_self path).trans h.read
  apart _ := h.cons_apart hswap hitem
  items _ _ := h.cons_items hswap hitem
  keys _ _ := h.cons_keys hswap hitem

end

/-! ## Steps -/

/-- A value admits the steps of a chain one after the other: an index that is a position of an
array, and a property that an object has. A last property may be new. -/
inductive Admits : List Step → Value → Prop
  | done (v : Value) : Admits [] v
  | index {i item : Value} {n : Nat} {items : List Value} {t : Token} {rest : List Step} :
      i.IsPosition n → items[n]? = some item → Admits rest item →
      Admits (.index i t :: rest) (.array items)
  | property {key : Text} {v : Value} {fields : Table Value} {t : Token} {rest : List Step} :
      Table.get? fields key = some v → Admits rest v →
      Admits (.property key t :: rest) (.object fields)
  | create {key : Text} {fields : Table Value} {t : Token} :
      Admits [.property key t] (.object fields)

end Value

/-- The access that a step of a chain makes. -/
inductive Step.Leads : Step → Access → Prop
  | index {i : Value} {n : Nat} {t : Token} : i.IsPosition n → Leads (.index i t) (.item n)
  | property {key : Text} {t : Token} : Leads (.property key t) (.property key)

namespace Value

theorem item_of_isPosition {i item : Value} {n : Nat} {items : List Value} (h : i.IsPosition n)
    (hitem : items[n]? = some item) (precision : Precision) :
    (Value.array items).item precision i = .ok (items, n, item) := by
  simp [Value.item, position_of_isPosition h, hitem, bind, Except.bind, pure, Except.pure]

section

variable {r i item : Value} {n : Nat} {items : List Value} {fields : Table Value} {key : Text}
  {t : Token} {rest : List Step}

theorem replace_index (hi : i.IsPosition n) (hitem : items[n]? = some item) :
    Value.replace r (.index i t :: rest) (.array items) =
      (Value.replace r rest item).map fun part => .array (items.set n part) := by
  simp only [Value.replace, Value.atStep, item_of_isPosition hi hitem, Except.mapError, bind,
    Except.bind]
  cases Value.replace r rest item <;> rfl

theorem replace_property (h : rest = [] ∨ Table.contains fields key = true) :
    Value.replace r (.property key t :: rest) (.object fields) =
      (Value.replace r rest ((Table.get? fields key).getD .null)).map fun part =>
        .object (Table.insert key part fields) := by
  have hown : (Value.object fields).ownFields key rest.isEmpty = .ok fields :=
    if_pos (by simpa using h)
  simp only [Value.replace, Value.atStep, hown, Except.mapError, bind, Except.bind]
  cases Value.replace r rest ((Table.get? fields key).getD .null) <;> rfl

end

/-- An index that cannot be taken is reported as such. -/
theorem replace_index_cases (r i : Value) (t : Token) (rest : List Step) (v : Value) :
    (∃ items n item, v = .array items ∧ i.IsPosition n ∧ items[n]? = some item) ∨
      ∃ f, Value.replace r (.index i t :: rest) v = .error f ∧ f.cause.category = "IndexError" := by
  cases hitem : v.item .integral i with
  | ok found =>
      obtain ⟨hv, hposition, hget⟩ := Value.item_ok hitem
      exact .inl ⟨_, _, _, hv, isPosition_of_position hposition, hget⟩
  | error c =>
      refine .inr ⟨⟨c, t.location⟩, ?_, Value.item_category hitem⟩
      simp [Value.replace, Value.atStep, hitem, Except.mapError, bind, Except.bind, Step.token]

/-- So is a property. -/
theorem replace_property_cases (r : Value) (key : Text) (t : Token) (rest : List Step)
    (v : Value) :
    (∃ fields, v = .object fields ∧ (rest = [] ∨ Table.contains fields key = true)) ∨
      ∃ f, Value.replace r (.property key t :: rest) v = .error f ∧
        f.cause.category ∈ ["TypeError", "PropertyError"] := by
  cases hown : v.ownFields key rest.isEmpty with
  | ok fields =>
      obtain rfl := Value.ownFields_ok hown
      refine .inl ⟨fields, rfl, ?_⟩
      by_contra hneither
      rw [Value.ownFields, if_neg (by simpa using hneither)] at hown
      cases hown
  | error c =>
      refine .inr ⟨⟨c, t.location⟩, ?_, Value.ownFields_category hown⟩
      simp [Value.replace, Value.atStep, hown, Except.mapError, bind, Except.bind, Step.token]

/-- Where the steps are admitted, there is something to replace. -/
theorem Admits.replace {steps : List Step} {old : Value} (h : old.Admits steps) (r : Value) :
    ∃ new, Value.replace r steps old = .ok new := by
  induction h with
  | done v => exact ⟨r, rfl⟩
  | index hi hitem _ ih =>
      obtain ⟨part, hpart⟩ := ih
      exact ⟨_, by rw [replace_index hi hitem, hpart]; rfl⟩
  | property hget _ ih =>
      obtain ⟨part, hpart⟩ := ih
      have hcontains := Option.isSome_of_eq_some hget
      exact ⟨_, by rw [replace_property (.inr hcontains), hget, Option.getD_some, hpart]; rfl⟩
  | create => exact ⟨_, rfl⟩

/-- The result of replacing what admitted steps lead to, or the report of a step that is not
admitted. -/
def Replaced (r : Value) (steps : List Step) (old : Value) : Except Fault Value → Prop
  | .ok new => old.Admits steps ∧ ∃ path, List.Forall₂ Step.Leads steps path ∧
    Updated path r old new
  | .error f => f.cause.category ∈ ["IndexError", "TypeError", "PropertyError"]

section

variable {r i item : Value} {n : Nat} {items : List Value} {fields : Table Value} {key : Text}
  {rest : List Step} {result : Except Fault Value}

theorem Replaced.index (hi : i.IsPosition n) (hitem : items[n]? = some item)
    (h : Replaced r rest item result) (t : Token) :
    Replaced r (.index i t :: rest) (.array items)
      (result.map fun part => .array (items.set n part)) := by
  cases result with
  | error f => exact h
  | ok part =>
      obtain ⟨hadmits, path, hleads, hupdated⟩ := h
      have hlength : n < items.length := (List.getElem?_eq_some_iff.mp hitem).1
      exact ⟨.index hi hitem hadmits, .item n :: path, .cons (.index hi) hleads,
        .cons (swapped_item hlength part) (.inr hitem) hupdated⟩

theorem Replaced.property (hkey : rest = [] ∨ Table.contains fields key = true)
    (h : Replaced r rest ((Table.get? fields key).getD .null) result) (t : Token) :
    Replaced r (.property key t :: rest) (.object fields)
      (result.map fun part => .object (Table.insert key part fields)) := by
  cases result with
  | error f => exact h
  | ok part =>
      obtain ⟨hadmits, path, hleads, hupdated⟩ := h
      have hswap := swapped_property fields key part
      cases hget : Table.get? fields key with
      | some v =>
          rw [hget] at hadmits hupdated
          exact ⟨.property hget hadmits, .property key :: path, .cons .property hleads,
            .cons hswap (.inr hget) hupdated⟩
      | none =>
          -- only a last step gets here
          obtain rfl : rest = [] := hkey.resolve_right (by simp [Table.contains, hget])
          cases hleads
          exact ⟨.create, [.property key], .cons .property .nil, .cons hswap (.inl rfl) hupdated⟩

end

theorem replace_replaced (r : Value) (steps : List Step) (old : Value) :
    Replaced r steps old (Value.replace r steps old) := by
  induction steps generalizing old with
  | nil => exact ⟨.done old, [], .nil, updated_nil r old⟩
  | cons step rest ih =>
      cases step with
      | index i t =>
          rcases replace_index_cases r i t rest old with
            ⟨items, n, item, rfl, hi, hitem⟩ | ⟨f, hf, hcategory⟩
          · rw [replace_index hi hitem]
            exact (ih item).index hi hitem t
          · rw [hf]
            simp [Replaced, hcategory]
      | property key t =>
          rcases replace_property_cases r key t rest old with
            ⟨fields, rfl, hkey⟩ | ⟨f, hf, hcategory⟩
          · rw [replace_property hkey]
            exact (ih _).property hkey t
          · rw [hf]
            exact List.mem_cons_of_mem _ hcategory

end Value

/-! ## Reading -/

theorem Value.getItem_of_part {v w i : Value} {n : Nat} (h : v.part? (.item n) = some w)
    (hi : i.IsPosition n) : v.getItem i = .ok w := by
  cases v with
  | array items =>
      simp [Value.getItem, Value.item_of_isPosition hi h, bind, Except.bind, pure, Except.pure]
  | _ => cases h

theorem Value.getProperty_of_part {v w : Value} {key : Text}
    (h : v.part? (.property key) = some w) : v.getProperty key = .ok w := by
  cases v with
  | object fields =>
      have hget : Table.get? fields key = some w := h
      simp [Value.getProperty, hget]
  | _ => cases h

/-- A variable is left as it is. -/
def Machine.Keeps (name : Text) (m m' : Machine) : Prop :=
  Table.get? m'.frame name = Table.get? m.frame name

/-- A chain of indexes and properties on a variable has the given steps. Between two machines its
indexes are evaluated from the variable outward, and leave the variable as it is. -/
inductive Env.Chain (env : Env) (name : Text) (m : Machine) : Expr → List Step → Machine → Prop
  | root {t : Token} : Chain env name m (.ident name t) [] m
  | index {object position : Expr} {t : Token} {steps : List Step} {i : Value}
      {m₁ m₂ : Machine} : Chain env name m object steps m₁ →
      (env.evalExpr position >>= resolve) m₁ = .done i m₂ → Machine.Keeps name m₁ m₂ →
      Chain env name m (.index object position t) (steps ++ [.index i t]) m₂
  | member {object : Expr} {key : Text} {t : Token} {steps : List Step} {m₁ : Machine} :
      Chain env name m object steps m₁ →
      Chain env name m (.member object key t) (steps ++ [.property key t]) m₁

theorem Step.leads_concat {steps : List Step} {step : Step} {path : List Access}
    (h : List.Forall₂ Step.Leads (steps ++ [step]) path) :
    ∃ start a, path = start ++ [a] ∧ List.Forall₂ Step.Leads steps start ∧ step.Leads a := by
  induction steps generalizing path with
  | nil =>
      cases h with
      | cons ha hrest =>
          cases hrest
          exact ⟨[], _, rfl, .nil, ha⟩
  | cons first rest ih =>
      cases h with
      | cons hfirst hrest =>
          obtain ⟨start, a, rfl, hstart, ha⟩ := ih hrest
          exact ⟨_ :: start, a, rfl, .cons hfirst hstart, ha⟩

/-- Two evaluations that are done one after the other. -/
theorem Eval.bind_of_bind {α β γ : Type} {x : Eval α} {g : α → Eval β} {f : β → Eval γ}
    {m m' : Machine} {b : β} (h : (x >>= g) m = .done b m') :
    (x >>= fun a => g a >>= f) m = f b m' := by
  rw [← bind_assoc]
  exact Eval.bind_of_done h

theorem Eval.read_of_get? {m : Machine} {name : Text} {v : Value}
    (h : Table.get? m.frame name = some v) : (Evaluation.read name : Eval Value) m = .done v m := by
  have hread : (Evaluation.read name : Eval Value) m =
      .done ((Table.get? m.frame name).getD .null) m := rfl
  rw [hread, h, Option.getD_some]

theorem Expr.eq_ident_of_name {e : Expr} {name : Text} (h : e.name? = some name) :
    ∃ t, e = .ident name t := by
  cases e with
  | ident name' t =>
      cases h
      exact ⟨t, rfl⟩
  | _ => cases h

/-- What is at the end of the path of a chain is what the chain evaluates to. -/
theorem Env.Chain.evalExpr {env : Env} {name : Text} {m m' : Machine} {e : Expr}
    {steps : List Step} (h : env.Chain name m e steps m')
    {path : List Access} (hleads : List.Forall₂ Step.Leads steps path) {v w : Value}
    (hget : Table.get? m.frame name = some v) (hat : v.at? path = some w) :
    env.evalExpr e m = .done w m' ∧ Table.get? m'.frame name = some v := by
  induction h generalizing path w with
  | root =>
      cases hleads
      cases hat
      rw [Env.evalExpr]
      exact ⟨Eval.read_of_get? hget, hget⟩
  | @index object position t steps i m₁ m₂ hobject hi hkeeps ih =>
      obtain ⟨start, _, rfl, hstart, ⟨hposition⟩⟩ := Step.leads_concat hleads
      rw [Value.at?_concat] at hat
      obtain ⟨u, hu, hw⟩ := Option.bind_eq_some_iff.mp hat
      obtain ⟨hvalue, hget₁⟩ := ih hstart hu
      have hget₂ : Table.get? m₂.frame name = some v := hkeeps.trans hget₁
      have hitem := Value.getItem_of_part hw hposition
      refine ⟨?_, hget₂⟩
      rw [Env.evalExpr]
      cases hname : object.name? with
      | some name' =>
          -- the index of a variable is evaluated before the variable is read
          obtain ⟨t', rfl⟩ := Expr.eq_ident_of_name hname
          cases hobject
          cases hstart
          cases hu
          dsimp only
          rw [Eval.bind_of_bind hi, Eval.bind_of_done (Eval.read_of_get? hget₂), hitem]
          rfl
      | none =>
          dsimp only
          rw [Eval.bind_of_done hvalue, Eval.bind_of_bind hi, hitem]
          rfl
  | @member object key t steps m₁ hobject ih =>
      obtain ⟨start, _, rfl, hstart, ⟨⟩⟩ := Step.leads_concat hleads
      rw [Value.at?_concat] at hat
      obtain ⟨u, hu, hw⟩ := Option.bind_eq_some_iff.mp hat
      obtain ⟨hvalue, hget₁⟩ := ih hstart hu
      have hproperty := Value.getProperty_of_part hw
      refine ⟨?_, hget₁⟩
      rw [Env.evalExpr]
      cases hname : object.name? with
      | some name' =>
          obtain ⟨t', rfl⟩ := Expr.eq_ident_of_name hname
          cases hobject
          cases hstart
          cases hu
          dsimp only
          rw [Eval.bind_of_done (Eval.read_of_get? hget), hproperty]
          rfl
      | none =>
          dsimp only
          rw [Eval.bind_of_done hvalue, hproperty]
          rfl

/-! ## Assigning -/

/-- The faults that an assignment to a part of a variable can end with. -/
def Fault.IsAboutPart (f : Fault) : Prop :=
  f.cause.category ∈ ["UndefinedError", "IndexError", "TypeError", "PropertyError"]

section

variable (name : Text) (token : Token) (steps : List Step) (r : Value)

theorem Eval.store_of_none {m : Machine} (h : Table.get? m.frame name = none) :
    ∃ f, (Env.store name token steps r : Eval Unit) m = .fault f m ∧ f.IsAboutPart := by
  have hlookup : (lookup? name : Eval (Option Value)) m = .done none m := by
    rw [← h]
    rfl
  unfold Env.store
  rw [Eval.bind_of_done hlookup]
  dsimp only
  split
  · exact ⟨_, rfl, by simp [Fault.IsAboutPart, Cause.category]⟩
  · exact ⟨_, rfl, by simp [Fault.IsAboutPart, Cause.category]⟩

theorem Eval.store_of_some {m : Machine} {old : Value} (h : Table.get? m.frame name = some old) :
    (Env.store name token steps r : Eval Unit) m =
      match Value.replace r steps old with
      | .ok new => .done () { m with frame := Table.insert name new m.frame }
      | .error f => .fault f m := by
  have hlookup : (lookup? name : Eval (Option Value)) m = .done (some old) m := by
    rw [← h]
    rfl
  unfold Env.store
  rw [Eval.bind_of_done hlookup]
  dsimp only
  cases Value.replace r steps old <;> rfl

/-- A part of a variable is replaced if the variable is there and admits the steps, and otherwise
the machine stays as it is. -/
theorem Eval.store_cases (m : Machine) :
    (∃ old new path, Table.get? m.frame name = some old ∧ old.Admits steps ∧
        List.Forall₂ Step.Leads steps path ∧ Value.Updated path r old new ∧
        (Env.store name token steps r : Eval Unit) m =
          .done () { m with frame := Table.insert name new m.frame }) ∨
      ∃ f, (Env.store name token steps r : Eval Unit) m = .fault f m ∧ f.IsAboutPart ∧
        ∀ old, Table.get? m.frame name = some old → ¬ old.Admits steps := by
  cases hget : Table.get? m.frame name with
  | none =>
      obtain ⟨f, hstore, hcause⟩ := Eval.store_of_none name token steps r hget
      exact .inr ⟨f, hstore, hcause, by simp⟩
  | some old =>
      have hreplaced := Value.replace_replaced r steps old
      rw [Eval.store_of_some name token steps r hget]
      cases hreplace : Value.replace r steps old with
      | ok new =>
          rw [hreplace] at hreplaced
          obtain ⟨hadmits, path, hleads, hupdated⟩ := hreplaced
          exact .inl ⟨old, new, path, rfl, hadmits, hleads, hupdated, rfl⟩
      | error f =>
          rw [hreplace] at hreplaced
          refine .inr ⟨f, rfl, List.mem_cons_of_mem _ hreplaced, ?_⟩
          rintro _ ⟨⟩ hadmits
          obtain ⟨new, hnew⟩ := hadmits.replace r
          rw [hreplace] at hnew
          cases hnew

end

/-! ## Assigning on the memory -/

/-- A chain of indexes and properties on a variable has the given steps. Between two runtimes its
indexes are evaluated from the variable outward, each of them keeping what it has to. -/
inductive Engine.Chain (g : Engine) (level : Nat) (name : Text)
    (Keeps : Runtime → Runtime → Prop) (c : Runtime) : Expr → List Step → Runtime → Prop
  | root {t : Token} : Chain g level name Keeps c (.ident name t) [] c
  | index {object position : Expr} {t : Token} {steps : List Step} {i : Word}
      {c₁ c₂ : Runtime} : Chain g level name Keeps c object steps c₁ →
      (g.evalExpr level position >>= Exec.resolve level) c₁ = (.done i, c₂) → Keeps c₁ c₂ →
      Chain g level name Keeps c (.index object position t) (steps ++ [.index i.shell t]) c₂
  | member {object : Expr} {key : Text} {t : Token} {steps : List Step} {c₁ : Runtime} :
      Chain g level name Keeps c object steps c₁ →
      Chain g level name Keeps c (.member object key t) (steps ++ [.property key t]) c₁

@[simp] theorem Value.shell_shell (v : Value) : v.shell.shell = v.shell := by
  cases v <;> rfl

@[simp] theorem Word.shell_shell (w : Word) : w.shell.shell = w.shell := by
  cases w <;> rfl

section

variable {g : Engine} {level : Nat} {target : Expr} {name : Text}
  {Keeps : Runtime → Runtime → Prop} {c c₁ c₂ : Runtime} {steps : List Step}

namespace Engine.Chain

theorem evalSteps (h : g.Chain level name Keeps c₁ target steps c₂) :
    g.evalSteps level target c₁ = (.done steps, c₂) := by
  induction h with
  | root => rfl
  | index _ hi _ ih =>
      rw [Engine.evalSteps, Exec.bind_of_done ih, ← bind_assoc, Exec.bind_of_done hi]
      rfl
  | member _ ih =>
      rw [Engine.evalSteps, Exec.bind_of_done ih]
      rfl

/-- A chain on the memory is one on values, if its indexes leave the variable as it is. -/
theorem mirrored {env : Env} (hmirrors : g.Mirrors Charter.free env)
    (h : g.Chain level name Keeps c₁ target steps c₂) {m₁ : Machine} {P : Assertion}
    (hs : State Charter.free level c₁ m₁ P) :
    ∃ m₂, State Charter.free level c₂ m₂ P ∧
      ((∀ c c', Keeps c c' → c.SameAt level name c') →
        ∃ steps', steps = steps'.map Step.shell ∧ env.Chain name m₁ target steps' m₂) := by
  induction h with
  | root => exact ⟨m₁, hs, fun _ => ⟨[], rfl, .root⟩⟩
  | @index object position t steps i c c' _ hi hkeeps ih =>
      obtain ⟨m, hs, hchain⟩ := ih
      have hrun := ((hmirrors.evalExpr position).bind fun _ _ => Follows.resolve) c m P
        (by rwa [one_mul])
      rw [hi] at hrun
      generalize ho : (env.evalExpr position >>= resolve : Eval Value) m = o at hrun
      cases hrun with
      | @done _ i' _ m' hs' hu =>
          have hshell := hs'.learn Assertion.word_shell
          refine ⟨m', hs'.imp Assertion.mul_entails_right, fun hsame => ?_⟩
          obtain ⟨steps', rfl, hobject⟩ := hchain hsame
          have hkept : Machine.Keeps name m m' := by
            rw [Machine.Keeps, ← hs.value?_eq, ← hs'.value?_eq]
            exact hsame c c' hkeeps
          exact ⟨steps' ++ [.index i' t], by simp [Step.shell, hshell], .index hobject ho hkept⟩
  | @member object key t steps c _ ih =>
      obtain ⟨m, hs, hchain⟩ := ih
      refine ⟨m, hs, fun hsame => ?_⟩
      obtain ⟨steps', rfl, hobject⟩ := hchain hsame
      exact ⟨steps' ++ [.property key t], by simp [Step.shell], .member hobject⟩

end Engine.Chain

end

theorem Value.isPosition_shell {v : Value} {n : Nat} : v.shell.IsPosition n ↔ v.IsPosition n := by
  cases v <;> simp [Value.IsPosition, Value.shell]

theorem Step.leads_shell {step : Step} {a : Access} : step.shell.Leads a ↔ step.Leads a := by
  constructor
  · intro h
    cases step with
    | index i t =>
        cases h with
        | index hi => exact .index (Value.isPosition_shell.mp hi)
    | property key t => exact h
  · rintro (hi | _)
    · exact .index (Value.isPosition_shell.mpr hi)
    · exact .property

theorem Step.leads_map_shell {steps : List Step} {path : List Access} :
    List.Forall₂ Step.Leads (steps.map Step.shell) path ↔ List.Forall₂ Step.Leads steps path := by
  rw [List.forall₂_map_left_iff]
  exact ⟨fun h => h.imp fun _ _ => Step.leads_shell.mp,
    fun h => h.imp fun _ _ => Step.leads_shell.mpr⟩

/-- A chain along a path evaluates to a copy of what is there. -/
theorem Engine.Chain.evalExpr {g : Engine} {env : Env} (hmirrors : g.Mirrors Charter.free env)
    {level : Nat} {name : Text} {c c' : Runtime} {e : Expr} {steps : List Step}
    (h : g.Chain level name (Runtime.SameAt level name) c e steps c') {m : Machine} {P : Assertion}
    (hs : State Charter.free level c m P) {path : List Access}
    (hleads : List.Forall₂ Step.Leads steps path) {v r : Value}
    (hvalue : c.value? level name = some v) (hat : v.at? path = some r) :
    ∃ u c'', g.evalExpr level e c = (.done u, c'') ∧ c''.memory.read u = some r := by
  obtain ⟨m', -, hchain⟩ := h.mirrored hmirrors hs
  obtain ⟨steps', rfl, hvalues⟩ := hchain fun _ _ hsame => hsame
  rw [hs.value?_eq] at hvalue
  obtain ⟨htree, -⟩ := hvalues.evalExpr (Step.leads_map_shell.mp hleads) hvalue hat
  have hrun := hmirrors.evalExpr e c m P (by rwa [one_mul])
  rw [htree] at hrun
  generalize g.evalExpr level e c = result at hrun
  cases hrun with
  | done hs' _ => exact ⟨_, _, rfl, hs'.shows_word.read_eq⟩

section

variable {level : Nat} {name : Text} {c c' : Runtime} {m : Machine} {w : Word} {r : Value}
  {P Q : Assertion} {steps : List Step}

/-- A part of a variable is replaced in the memory if the variable is there and admits the steps,
and otherwise the runtime stays as it is. -/
theorem State.store_cases (hs : State Charter.free level c m (.word Charter.free r w * P))
    (token : Token) (hsteps : steps.map Step.shell = steps) :
    (∃ old new path c', Table.get? m.frame name = some old ∧ old.Admits steps ∧
        List.Forall₂ Step.Leads steps path ∧ Value.Updated path r old new ∧
        Exec.store level name token steps w c = (.done (), c') ∧
        State Charter.free level c' { m with frame := Table.insert name new m.frame }
          (.word Charter.free r w * P) ∧ Undisturbed Charter.free level c c') ∨
      ∃ f, Exec.store level name token steps w c = (.fault f, c) ∧ f.IsAboutPart ∧
        ∀ old, Table.get? m.frame name = some old → ¬ old.Admits steps := by
  have hstores := hs.store name token steps
  rw [State.Stores, hsteps] at hstores
  rcases Eval.store_cases name token steps r m with
    ⟨old, new, path, hget, hadmits, hleads, hupdated, hstore⟩ | ⟨f, hstore, hcause, hnone⟩
  · rcases hstores with ⟨f, -, hfault⟩ | ⟨new', c', hdone, hdone', hs', hu⟩
    · rw [hstore] at hfault
      cases hfault
    · have hframe : Table.insert name new m.frame = Table.insert name new' m.frame := by
        rw [hstore] at hdone'
        injection hdone' with _ hmachine
        exact congrArg Machine.frame hmachine
      rw [← hframe] at hs'
      exact .inl ⟨old, new, path, c', hget, hadmits, hleads, hupdated, hdone, hs', hu⟩
  · rcases hstores with ⟨f', hfault, hfault'⟩ | ⟨new', c', -, hdone', -⟩
    · rw [hstore] at hfault'
      injection hfault' with hf
      exact .inr ⟨f, hf ▸ hfault, hcause, hnone⟩
    · rw [hstore] at hdone'
      cases hdone'

end

/-- An object in the variable `a` with an array as a property. -/
def Host.nested : Host :=
  Host.setGlobal {} "a" (.object [("b", .array [.null, .null])])

end Script
