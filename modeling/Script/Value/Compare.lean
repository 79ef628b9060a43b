import Script.Value

/-!
# Equality and order of values

Values of different types are unequal, and are ordered by their types. A NaN is equal to
nothing and has no order, and neither has an array whose comparison meets one.
-/

namespace Script

/-- Functions are equal when they have the same name, body and parameters. -/
def Function.equal (f g : Function) : Bool :=
  f.name == g.name && f.body.map Body.id == g.body.map Body.id && f.params == g.params

/-- Functions are ordered by their names, then by the count of their parameters. -/
def Function.compare (f g : Function) : Ordering :=
  (Text.compare f.name g.name).then (Ord.compare f.params.length g.params.length)

namespace Value

mutual

/-- Arrays and objects are equal when their parts are. -/
def equal : Value → Value → Bool
  | .null, .null => true
  | .number x, .number y => x.equal y
  | .string s, .string t => s == t
  | .boolean a, .boolean b => a == b
  | .array xs, .array ys => equalItems xs ys
  | .nameRef s, .nameRef t => s == t
  | .function f, .function g => f.equal g
  | .object xs, .object ys => equalFields xs ys
  | _, _ => false

def equalItems : List Value → List Value → Bool
  | [], [] => true
  | x :: xs, y :: ys => equal x y && equalItems xs ys
  | _, _ => false

def equalFields : List (Text × Value) → List (Text × Value) → Bool
  | [], [] => true
  | (k, x) :: xs, (l, y) :: ys => k == l && equal x y && equalFields xs ys
  | _, _ => false

end

mutual

/-- The order of two values. Arrays are ordered by their first difference, objects by the count
of their properties. -/
def compare? : Value → Value → Option Ordering
  | .null, .null => some .eq
  | .number x, .number y => x.compare? y
  | .string s, .string t => some (Text.compare s t)
  | .boolean a, .boolean b => some (compare a b)
  | .array xs, .array ys => compareItems? xs ys
  | .nameRef s, .nameRef t => some (Text.compare s t)
  | .function f, .function g => some (f.compare g)
  | .object xs, .object ys => some (compare xs.length ys.length)
  | x, y => some (compare x.kind.rank y.kind.rank)

def compareItems? : List Value → List Value → Option Ordering
  | [], [] => some .eq
  | [], _ :: _ => some .lt
  | _ :: _, [] => some .gt
  | x :: xs, y :: ys =>
    match compare? x y with
    | some .eq => compareItems? xs ys
    | decided => decided

end

end Value

end Script
