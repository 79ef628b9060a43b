import Script.Proofs.Sequence
import Script.Proofs.Values

/-!
# Laws of equality and order

The order of values is a strict weak order as far as it goes: what is missing is the order of
arrays in which a comparison meets a NaN. Equal values stand at the same place of the order,
although equality looks into objects and at the bodies of functions and the order does not.
-/

namespace Script

/-! ## Comparisons in a row -/

/-- Of three comparisons, the third is there if the first two are and do not say `gt`; it is strict
if one of them is. -/
def Chained (first second third : Option Ordering) : Prop :=
  ∀ o o', first = some o → second = some o' → o.isLE → o'.isLE → third = some (o.then o')

theorem chained_of_transCmp {α : Type} (cmp : α → α → Ordering) [Std.TransCmp cmp] (a b c : α) :
    Chained (some (cmp a b)) (some (cmp b c)) (some (cmp a c)) := by
  rintro _ _ ⟨⟩ ⟨⟩ hab hbc
  cases h : cmp a b with
  | lt => rw [Std.TransCmp.lt_of_lt_of_isLE h hbc, Ordering.lt_then]
  | eq => rw [Std.TransCmp.congr_left h, Ordering.eq_then]
  | gt => simp [h] at hab

theorem swap_of_orientedCmp {α : Type} (cmp : α → α → Ordering) [Std.OrientedCmp cmp] (a b : α) :
    some (cmp b a) = (some (cmp a b)).map Ordering.swap :=
  congrArg some Std.OrientedCmp.eq_swap

/-! ## Numbers -/

namespace Number

theorem compare?_chained (x y z : Number) :
    Chained (x.compare? y) (y.compare? z) (x.compare? z) := by
  unfold compare?
  by_cases hx : x.isNaN
  · simp [hx, Chained]
  by_cases hy : y.isNaN
  · simp [hy, Chained]
  by_cases hz : z.isNaN
  · simp [hz, Chained]
  simpa [hx, hy, hz] using chained_of_transCmp compare x.rank y.rank z.rank

theorem compare?_swap (x y : Number) : y.compare? x = (x.compare? y).map Ordering.swap := by
  unfold compare?
  rw [Bool.or_comm]
  split
  · rfl
  · exact swap_of_orientedCmp compare x.rank y.rank

end Number

namespace Value

/-! ## Types in order -/

theorem Kind.rank_injective {k l : Kind} (h : k.rank = l.rank) : k = l := by
  cases k <;> cases l <;> first | rfl | cases h

theorem compare?_of_kind_ne {a b : Value} (h : a.kind ≠ b.kind) :
    a.compare? b = some (compare a.kind.rank b.kind.rank) := by
  cases a <;> cases b <;> first | rfl | exact absurd rfl h

theorem compare?_of_rank_lt {a b : Value} (h : a.kind.rank < b.kind.rank) :
    a.compare? b = some .lt := by
  have hkind : a.kind ≠ b.kind := fun heq => Nat.lt_irrefl _ (heq ▸ h)
  rw [compare?_of_kind_ne hkind, Nat.compare_eq_lt.mpr h]

/-- Values in order are of one type, or in strict order by their types. -/
theorem rank_of_compare? {a b : Value} {o : Ordering} (h : a.compare? b = some o) (ho : o.isLE) :
    a.kind = b.kind ∨ a.kind.rank < b.kind.rank ∧ o = .lt := by
  by_cases hkind : a.kind = b.kind
  · exact .inl hkind
  · rw [compare?_of_kind_ne hkind] at h
    cases h
    have hle : a.kind.rank ≤ b.kind.rank := Nat.isLE_compare.mp ho
    have hlt : a.kind.rank < b.kind.rank :=
      Nat.lt_of_le_of_ne hle fun heq => hkind (Kind.rank_injective heq)
    exact .inr ⟨hlt, Nat.compare_eq_lt.mpr hlt⟩

theorem chained_of_kind_ne {a b c : Value} (h : ¬ (a.kind = b.kind ∧ b.kind = c.kind)) :
    Chained (a.compare? b) (b.compare? c) (a.compare? c) := by
  intro o o' hab hbc ho ho'
  rcases rank_of_compare? hab ho with hkind | ⟨hlt, rfl⟩
  · rcases rank_of_compare? hbc ho' with hkind' | ⟨hlt', rfl⟩
    · exact absurd ⟨hkind, hkind'⟩ h
    · rw [compare?_of_rank_lt (hkind ▸ hlt')]
      cases o <;> first | rfl | cases ho
  · rw [Ordering.lt_then]
    refine compare?_of_rank_lt ?_
    rcases rank_of_compare? hbc ho' with hkind' | ⟨hlt', -⟩
    · exact hkind' ▸ hlt
    · exact Nat.lt_trans hlt hlt'

/-! ## Plain types

Within a type other than numbers and arrays, a text decides and then a count. -/

def Kind.isPlain : Kind → Bool
  | .number | .array => false
  | _ => true

/-- What a value of a plain type is ordered by. -/
def heading : Value → Text × Nat
  | .string s => (s, 0)
  | .boolean b => ([], b.toNat)
  | .nameRef name => (name, 0)
  | .function f => (f.name, f.params.length)
  | .object fields => ([], fields.length)
  | _ => ([], 0)

def compareHeading : Value → Value → Ordering :=
  compareLex (compareOn (Prod.fst ∘ heading)) (compareOn (Prod.snd ∘ heading))

instance : Std.TransCmp compareHeading :=
  inferInstanceAs (Std.TransCmp
    (compareLex (compareOn (Prod.fst ∘ heading)) (compareOn (Prod.snd ∘ heading))))

theorem compare?_of_isPlain {a b : Value} (hkind : a.kind = b.kind) (ha : a.kind.isPlain) :
    a.compare? b = some (a.compareHeading b) := by
  simp only [compareHeading, compareLex, compareOn, ← Text.compare_eq, Function.comp]
  cases a with
  | number x => cases ha
  | array items => cases ha
  | boolean p =>
    cases b with
    | boolean q => cases p <;> cases q <;> rfl
    | _ => cases hkind
  | _ =>
    cases b <;> cases hkind
    simp [compare?, heading, Function.compare, Text.compare]

/-! ## Order of values -/

/-- What decides that two arrays are in order: a first item that comes before the other, or the
remaining items after one at the same place. -/
theorem compareItems?_cons {x y : Value} {xs ys : List Value} {o : Ordering} (ho : o.isLE) :
    compareItems? (x :: xs) (y :: ys) = some o ↔
      x.compare? y = some .lt ∧ o = .lt ∨
        x.compare? y = some .eq ∧ compareItems? xs ys = some o := by
  rw [compareItems?]
  cases h : x.compare? y with
  | none => simp
  | some first => cases first <;> cases o <;> simp_all

theorem chained_cons {x y z : Value} {xs ys zs : List Value}
    (hfirst : Chained (x.compare? y) (y.compare? z) (x.compare? z))
    (hrest : Chained (compareItems? xs ys) (compareItems? ys zs) (compareItems? xs zs)) :
    Chained (compareItems? (x :: xs) (y :: ys)) (compareItems? (y :: ys) (z :: zs))
      (compareItems? (x :: xs) (z :: zs)) := by
  intro o o' hab hbc ho ho'
  have hthen : (o.then o').isLE := by cases o <;> cases o' <;> first | rfl | assumption
  rw [compareItems?_cons hthen]
  -- The first items decide unless both pairs of them are at the same place.
  rcases (compareItems?_cons ho).mp hab with ⟨hxy, rfl⟩ | ⟨hxy, hab⟩
  · rcases (compareItems?_cons ho').mp hbc with ⟨hyz, rfl⟩ | ⟨hyz, -⟩
    · exact .inl ⟨hfirst _ _ hxy hyz rfl rfl, rfl⟩
    · exact .inl ⟨hfirst _ _ hxy hyz rfl rfl, rfl⟩
  · rcases (compareItems?_cons ho').mp hbc with ⟨hyz, rfl⟩ | ⟨hyz, hbc⟩
    · refine .inl ⟨hfirst _ _ hxy hyz rfl rfl, ?_⟩
      cases o <;> first | rfl | cases ho
    · exact .inr ⟨hfirst _ _ hxy hyz rfl rfl, hrest o o' hab hbc ho ho'⟩

mutual

theorem compare?_chained (a b c : Value) :
    Chained (a.compare? b) (b.compare? c) (a.compare? c) := by
  by_cases hkind : a.kind = b.kind ∧ b.kind = c.kind
  case neg => exact chained_of_kind_ne hkind
  obtain ⟨hab, hbc⟩ := hkind
  match a with
  | .number x =>
    cases b <;> cases hab
    cases c <;> cases hbc
    exact x.compare?_chained _ _
  | .array xs =>
    cases b <;> cases hab
    cases c <;> cases hbc
    exact compareItems?_chained xs _ _
  | .null | .string _ | .boolean _ | .nameRef _ | .function _ | .object _ =>
    rw [compare?_of_isPlain hab rfl, compare?_of_isPlain hbc (hab ▸ rfl),
      compare?_of_isPlain (hab.trans hbc) rfl]
    exact chained_of_transCmp compareHeading _ b c

theorem compareItems?_chained (xs ys zs : List Value) :
    Chained (compareItems? xs ys) (compareItems? ys zs) (compareItems? xs zs) := by
  match xs with
  | [] =>
    intro o o' hab hbc ho ho'
    cases ys with
    | nil =>
      cases hab
      rw [hbc, Ordering.eq_then]
    | cons y ys =>
      cases hab
      cases zs with
      | nil =>
        cases hbc
        cases ho'
      | cons z zs => rfl
  | x :: xs =>
    cases ys with
    | nil =>
      rintro o o' ⟨⟩ hbc ⟨⟩
    | cons y ys =>
      cases zs with
      | nil =>
        rintro o o' hab ⟨⟩ ho ⟨⟩
      | cons z zs => exact chained_cons (compare?_chained x y z) (compareItems?_chained xs ys zs)

end

mutual

theorem compare?_swap (a b : Value) : b.compare? a = (a.compare? b).map Ordering.swap := by
  by_cases hkind : a.kind = b.kind
  case neg =>
    rw [compare?_of_kind_ne hkind, compare?_of_kind_ne (Ne.symm hkind)]
    exact swap_of_orientedCmp compare _ _
  match a with
  | .number x =>
    cases b <;> cases hkind
    exact x.compare?_swap _
  | .array xs =>
    cases b <;> cases hkind
    exact compareItems?_swap xs _
  | .null | .string _ | .boolean _ | .nameRef _ | .function _ | .object _ =>
    rw [compare?_of_isPlain hkind rfl, compare?_of_isPlain hkind.symm (hkind ▸ rfl)]
    exact swap_of_orientedCmp compareHeading _ b

theorem compareItems?_swap (xs ys : List Value) :
    compareItems? ys xs = (compareItems? xs ys).map Ordering.swap := by
  match xs with
  | [] => cases ys <;> rfl
  | x :: xs =>
    cases ys with
    | nil => rfl
    | cons y ys =>
      rw [compareItems?, compareItems?, compare?_swap x y, compareItems?_swap xs ys]
      cases x.compare? y with
      | none => rfl
      | some o => cases o <;> rfl

end

/-- A NaN, or an array in which arrays lead to one. -/
inductive ReachesNaN : Value → Prop
  | number {x : Number} : x.isNaN → ReachesNaN (.number x)
  | item {items : List Value} {v : Value} : v ∈ items → v.ReachesNaN → ReachesNaN (.array items)

theorem reachesNaN_number {x : Number} : (number x).ReachesNaN ↔ x.isNaN :=
  ⟨fun h => by cases h; assumption, .number⟩

theorem reachesNaN_array {items : List Value} :
    (array items).ReachesNaN ↔ ∃ v ∈ items, v.ReachesNaN := by
  constructor
  · intro h
    cases h with
    | item hv hnan => exact ⟨_, hv, hnan⟩
  · rintro ⟨v, hv, hnan⟩
    exact .item hv hnan

theorem ReachesNaN.not_isPlain {a : Value} (h : a.ReachesNaN) : ¬ a.kind.isPlain := by
  cases h <;> exact Bool.false_ne_true

mutual

theorem compare?_self (a : Value) :
    (a.ReachesNaN → a.compare? a = none) ∧ (¬ a.ReachesNaN → a.compare? a = some .eq) := by
  match a with
  | .number x =>
    rw [reachesNaN_number, compare?, Number.compare?, Bool.or_self]
    constructor
    · exact fun hnan => if_pos hnan
    · intro hx
      rw [if_neg hx]
      exact congrArg some Std.ReflCmp.compare_self
  | .array items =>
    rw [reachesNaN_array]
    exact compareItems?_self items
  | .null | .string _ | .boolean _ | .nameRef _ | .function _ | .object _ =>
    refine ⟨fun hnan => absurd rfl hnan.not_isPlain, fun _ => ?_⟩
    rw [compare?_of_isPlain rfl rfl]
    exact congrArg some Std.ReflCmp.compare_self

theorem compareItems?_self (items : List Value) :
    ((∃ v ∈ items, v.ReachesNaN) → compareItems? items items = none) ∧
      (¬ (∃ v ∈ items, v.ReachesNaN) → compareItems? items items = some .eq) := by
  match items with
  | [] => simp [compareItems?]
  | v :: rest =>
    have hv := compare?_self v
    have hrest := compareItems?_self rest
    rw [compareItems?]
    by_cases hnan : v.ReachesNaN
    · simp [hv.1 hnan, hnan]
    · simpa [hv.2 hnan, hnan] using hrest

end

end Value

/-- The order of values is a strict weak order but for NaNs. Exchanging two values turns their order
round and leaves none where there was none. If a first value is at most a second and the second at
most a third, then the first is at most the third, and less if one of the two is less. A value is at
its own place, unless it is a NaN or an array in which arrays lead to one: that has no order with
itself. -/
theorem values_weakly_ordered (a b c : Value) :
    b.compare? a = (a.compare? b).map Ordering.swap ∧
    (∀ o o', a.compare? b = some o → b.compare? c = some o' → o.isLE → o'.isLE →
      ∃ o'', a.compare? c = some o'' ∧ o''.isLE ∧ (o = .lt ∨ o' = .lt → o'' = .lt)) ∧
    (a.ReachesNaN → a.compare? a = none) ∧ (¬ a.ReachesNaN → a.compare? a = some .eq) := by
  refine ⟨a.compare?_swap b, fun o o' hab hbc ho ho' => ?_, a.compare?_self⟩
  refine ⟨o.then o', a.compare?_chained b c o o' hab hbc ho ho', ?_⟩
  cases o <;> cases o' <;> simp_all

/-- The first of three arrays is part of the second, which goes on with a NaN. -/
theorem arrays_before_and_after_nan :
    let a : Value := .array [.null]
    let b : Value := .array [.null, .number .nan]
    let c : Value := .array [.boolean true]
    a.compare? b = some .lt ∧ b.compare? c = some .lt ∧ a.compare? c = some .lt ∧
      b.compare? a = some .gt ∧ b.compare? b = none := by
  intro a b c
  have hab : a.compare? b = some .lt := rfl
  have hbc : b.compare? c = some .lt := rfl
  obtain ⟨hswap, hchained, -⟩ := values_weakly_ordered a b c
  obtain ⟨-, -, hnan, -⟩ := values_weakly_ordered b b b
  obtain ⟨o, hac, -, hlt⟩ := hchained _ _ hab hbc rfl rfl
  have hreaches : b.ReachesNaN :=
    .item (List.mem_cons_of_mem _ List.mem_cons_self) (.number (by decide +kernel))
  exact ⟨hab, hbc, hlt (.inl rfl) ▸ hac, by rw [hswap, hab]; rfl, hnan hreaches⟩

/-! ## Equality

Two values are equal if neither contains a NaN and equality sees the same in both of them. -/

/-- What equality sees of a value: of a number its place among the numbers, of a function its name,
its parameters and which body it has. -/
inductive Gist where
  | null
  | number (rank : Int)
  | string (s : Text)
  | boolean (b : Bool)
  | array (items : List Gist)
  | nameRef (name : Text)
  | function (name : Text) (body : Option BodyId) (params : List Text)
  | object (fields : List (Text × Gist))

namespace Value

mutual

def gist : Value → Gist
  | .null => .null
  | .number x => .number x.rank
  | .string s => .string s
  | .boolean b => .boolean b
  | .array items => .array (gistItems items)
  | .nameRef name => .nameRef name
  | .function f => .function f.name (f.body.map Body.id) f.params
  | .object fields => .object (gistFields fields)

def gistItems : List Value → List Gist
  | [] => []
  | v :: rest => v.gist :: gistItems rest

def gistFields : List (Text × Value) → List (Text × Gist)
  | [] => []
  | (key, v) :: rest => (key, v.gist) :: gistFields rest

end

/-- No NaN occurs in a value, neither in arrays nor in properties. -/
def FreeOfNaN (v : Value) : Prop :=
  v.Throughout fun part => ∀ x, part = .number x → x.isNaN = false

theorem freeOfNaN_array {items : List Value} :
    (array items).FreeOfNaN ↔ ∀ v ∈ items, v.FreeOfNaN := by
  simp [FreeOfNaN, throughout_array]

theorem freeOfNaN_object {fields : Table Value} :
    (object fields).FreeOfNaN ↔ Table.Each FreeOfNaN fields := by
  simp [FreeOfNaN, throughout_object, Table.Each]

mutual

theorem equal_iff (a b : Value) :
    a.equal b = true ↔ a.FreeOfNaN ∧ b.FreeOfNaN ∧ a.gist = b.gist := by
  match a with
  | .null | .string _ | .boolean _ | .nameRef _ =>
    cases b <;> simp [equal, gist, FreeOfNaN, Throughout, parts]
  | .number x =>
    cases b <;> simp [equal, gist, FreeOfNaN, Throughout, parts, Number.equal, and_assoc]
  | .function f =>
    cases b <;> simp [equal, gist, FreeOfNaN, Throughout, parts, Function.equal, and_assoc]
  | .array xs =>
    cases b with
    | array ys =>
      simp only [equal, gist, freeOfNaN_array, Gist.array.injEq]
      exact equalItems_iff xs ys
    | _ => simp [equal, gist]
  | .object xs =>
    cases b with
    | object ys =>
      simp only [equal, gist, freeOfNaN_object, Gist.object.injEq]
      exact equalFields_iff xs ys
    | _ => simp [equal, gist]

theorem equalItems_iff (xs ys : List Value) :
    equalItems xs ys = true ↔
      (∀ v ∈ xs, v.FreeOfNaN) ∧ (∀ v ∈ ys, v.FreeOfNaN) ∧ gistItems xs = gistItems ys := by
  match xs with
  | [] => cases ys <;> simp [equalItems, gistItems]
  | x :: xs =>
    cases ys with
    | nil => simp [equalItems, gistItems]
    | cons y ys =>
      simp only [equalItems, gistItems, Bool.and_eq_true, List.forall_mem_cons, List.cons.injEq,
        equal_iff x y, equalItems_iff xs ys]
      grind

theorem equalFields_iff (xs ys : List (Text × Value)) :
    equalFields xs ys = true ↔
      Table.Each FreeOfNaN xs ∧ Table.Each FreeOfNaN ys ∧ gistFields xs = gistFields ys := by
  match xs with
  | [] => cases ys <;> simp [equalFields, gistFields, Table.Each]
  | (k, x) :: xs =>
    cases ys with
    | nil => simp [equalFields, gistFields]
    | cons entry ys =>
      simp only [equalFields, gistFields, Table.Each, Bool.and_eq_true, beq_iff_eq,
        List.forall_mem_cons, List.cons.injEq, Prod.mk.injEq, equal_iff x entry.2,
        equalFields_iff xs ys]
      grind

end

theorem equal_comm (a b : Value) : a.equal b = b.equal a := by
  rw [Bool.eq_iff_iff, equal_iff, equal_iff]
  grind

theorem equal_trans {a b c : Value} (hab : a.equal b) (hbc : b.equal c) : a.equal c := by
  rw [equal_iff] at hab hbc ⊢
  exact ⟨hab.1, hbc.2.1, hab.2.2.trans hbc.2.2⟩

theorem length_gistFields (fields : Table Value) : (gistFields fields).length = fields.length := by
  induction fields with
  | nil => rfl
  | cons entry rest ih => rw [gistFields, List.length_cons, ih, List.length_cons]

theorem kind_of_gist {a b : Value} (h : a.gist = b.gist) : a.kind = b.kind := by
  cases a <;> cases b <;> first | rfl | cases h

/-- The order looks at no more than equality does. -/
theorem heading_of_gist {a b : Value} (h : a.gist = b.gist) : a.heading = b.heading := by
  have hkind := kind_of_gist h
  cases a with
  | object xs =>
    cases b <;> cases hkind
    have hlength := congrArg List.length (Gist.object.inj h)
    rw [length_gistFields, length_gistFields] at hlength
    rw [heading, heading, hlength]
  | _ =>
    cases b <;> cases hkind
    simp_all [gist, heading]

mutual

theorem compare?_of_equal (a b : Value) (h : a.equal b = true) : a.compare? b = some .eq := by
  obtain ⟨ha, hb, hgist⟩ := (equal_iff a b).mp h
  have hkind := kind_of_gist hgist
  match a with
  | .number x =>
    cases b <;> cases hkind
    simp_all [gist, compare?, Number.compare?, FreeOfNaN, Throughout, parts]
  | .array xs =>
    cases b <;> cases hkind
    exact compareItems?_of_equal xs _ h
  | .null | .string _ | .boolean _ | .nameRef _ | .function _ | .object _ =>
    rw [compare?_of_isPlain hkind rfl]
    simp [compareHeading, compareLex, compareOn, heading_of_gist hgist]

theorem compareItems?_of_equal (xs ys : List Value) (h : equalItems xs ys = true) :
    compareItems? xs ys = some .eq := by
  match xs with
  | [] =>
    cases ys with
    | nil => rfl
    | cons y ys => cases h
  | x :: xs =>
    cases ys with
    | nil => cases h
    | cons y ys =>
      rw [equalItems, Bool.and_eq_true] at h
      rw [compareItems?, compare?_of_equal x y h.1]
      exact compareItems?_of_equal xs ys h.2

end

end Value

/-! ## Comparisons in programs -/

mutual

theorem Value.clone_eq (v : Value) : v.clone = v := by
  match v with
  | .null | .number _ | .string _ | .boolean _ | .nameRef _ | .function _ => rfl
  | .array items => rw [clone, cloneItems_eq items]
  | .object fields => rw [clone, cloneFields_eq fields]

theorem Value.cloneItems_eq (items : List Value) : cloneItems items = items := by
  match items with
  | [] => rfl
  | v :: rest => rw [cloneItems, v.clone_eq, cloneItems_eq rest]

theorem Value.cloneFields_eq (fields : List (Text × Value)) : cloneFields fields = fields := by
  match fields with
  | [] => rfl
  | (key, v) :: rest => rw [cloneFields, v.clone_eq, cloneFields_eq rest]

end

namespace Env

open Evaluation

/-- The values that an operator works on, from left to right. -/
def operands (env : Env) (left right : Expr) : Eval (Value × Value) := do
  let l ← resolve (← env.evalExpr left)
  let r ← resolve (← env.evalExpr right)
  return (l, r)

theorem evalExpr_binary (env : Env) (op : BinaryOp) (left right : Expr) (t : Token) :
    env.evalExpr (.binary op left right t) =
      env.operands left right >>= fun p => env.applyBinary op p.1 p.2 t := by
  simp only [evalExpr, operands, bind_assoc, pure_bind]

/-- What the comparisons say of equal values. -/
theorem applyBinary_of_equal (env : Env) {a b : Value} (h : a.equal b = true) (t : Token)
    (m : Machine) :
    (∀ op ∈ [.lessEqual, .greaterEqual], env.applyBinary op a b t m = .done (.boolean true) m) ∧
      ∀ op ∈ [.less, .greater, .notEqual],
        env.applyBinary op a b t m = .done (.boolean false) m := by
  have horder := Value.compare?_of_equal a b h
  constructor
  · intro op hop
    rcases List.mem_pair.mp hop with rfl | rfl
    · simp only [applyBinary, horder]
      rfl
    · simp only [applyBinary, horder]
      rfl
  · intro op hop
    simp only [List.mem_cons, List.not_mem_nil, or_false] at hop
    rcases hop with rfl | rfl | rfl
    · simp only [applyBinary, horder]
      rfl
    · simp only [applyBinary, horder]
      rfl
    · simp only [applyBinary, h]
      rfl

end Env

/-- Equality is symmetric and transitive, and a value equals a copy of itself if and only if no NaN
occurs in it. Equal values are at the same place of the order. So wherever `left == right` evaluates
to true, `<=` and `>=` in its place evaluate to true, and `<`, `>` and `!=` to false. -/
theorem equality_agrees_with_order (a b c : Value) :
    a.equal b = b.equal a ∧
    (a.equal b → b.equal c → a.equal c) ∧
    a.clone = a ∧ (a.equal a.clone ↔ a.FreeOfNaN) ∧
    (a.equal b → a.compare? b = some .eq) ∧
    ∀ (env : Env) (left right : Expr) (t t' : Token) (m m' : Machine),
      env.evalExpr (.binary .equal left right t) m = .done (.boolean true) m' →
      (∀ op ∈ [.lessEqual, .greaterEqual],
        env.evalExpr (.binary op left right t') m = .done (.boolean true) m') ∧
      ∀ op ∈ [.less, .greater, .notEqual],
        env.evalExpr (.binary op left right t') m = .done (.boolean false) m' := by
  refine ⟨a.equal_comm b, Value.equal_trans, a.clone_eq, by simp [Value.equal_iff, a.clone_eq],
    a.compare?_of_equal b, ?_⟩
  intro env left right t t' m m' h
  rw [Env.evalExpr_binary] at h
  obtain ⟨⟨l, r⟩, m₁, hoperands, happly⟩ := Eval.bind_eq_done_iff.mp h
  have hpure : Outcome.done (Value.boolean (l.equal r)) m₁ = .done (.boolean true) m' := happly
  obtain ⟨hequal, rfl⟩ : l.equal r = true ∧ m₁ = m' := by simpa using hpure
  obtain ⟨htrue, hfalse⟩ := env.applyBinary_of_equal hequal t' m₁
  refine ⟨fun op hop => ?_, fun op hop => ?_⟩
  · rw [Env.evalExpr_binary, Eval.bind_of_done hoperands, htrue op hop]
  · rw [Env.evalExpr_binary, Eval.bind_of_done hoperands, hfalse op hop]

/-- The comparisons of `[0, x]` and `[-0, x]` for an object `x` without properties. -/
theorem zeros_of_both_signs_equal :
    let v (x : Number) : Value := .array [.number x, .object []]
    let left : Expr := .array [.number .zero {}, .ident "x" {}] {}
    let right : Expr := .array [.negate (.number .zero {}) {}, .ident "x" {}] {}
    let m : Machine := { frame := [("x", .object [])] }
    let env : Env := ({} : Rules).env 0
    (v .zero).equal (v Number.zero.neg) ∧ (v Number.zero.neg).FreeOfNaN ∧
      env.evalExpr (.binary .equal left right {}) m = .done (.boolean true) m ∧
      env.evalExpr (.binary .lessEqual left right {}) m = .done (.boolean true) m ∧
      env.evalExpr (.binary .notEqual left right {}) m = .done (.boolean false) m := by
  intro v left right m env
  have hlaws := equality_agrees_with_order (v .zero) (v Number.zero.neg) (v .zero)
  have hlaws' := equality_agrees_with_order (v Number.zero.neg) (v .zero) (v Number.zero.neg)
  have hequal : (v .zero).equal (v Number.zero.neg) = true := by decide +kernel
  have hback : (v Number.zero.neg).equal (v .zero) = true := hlaws.1 ▸ hequal
  have hdone : env.evalExpr (.binary .equal left right {}) m = .done (.boolean true) m := rfl
  obtain ⟨htrue, hfalse⟩ := hlaws.2.2.2.2.2 env left right {} {} m m hdone
  have hfree := hlaws'.2.2.2.1.mp (by rw [hlaws'.2.2.1]; exact hlaws'.2.1 hback hequal)
  exact ⟨hequal, hfree, hdone, htrue _ (by simp), hfalse _ (by simp)⟩

end Script
