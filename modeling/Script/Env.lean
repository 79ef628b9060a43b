import Script.Machine

/-!
# Evaluation environments

What stays the same while a program runs: the built-in functions, the limit on nested calls,
and a way to execute a function body. Evaluating an expression or a statement is a recursion on
its tree; only bodies and repetitions go beyond that, and they are counted down.
-/

namespace Script

/-- The built-in functions. The last three are for hosts: one always yields the same value, one
yields its arguments as an array, and one hands them on to a declared function. -/
inductive Native where
  | print | len | push | str | type
  | constant (value : Value)
  | gather
  | forward (target : Text)

/-- The built-in functions that every program has. -/
def Native.standard : Table Native :=
  Table.ofList [("print", .print), ("len", .len), ("push", .push), ("str", .str), ("type", .type)]

/-- How a sequence of statements ends: by reaching its end, or by a `return`. -/
inductive Flow where
  | normal
  | returned (value : Value)

/-- The value of a call whose body ends in a given way. -/
def Flow.value : Flow → Value
  | .normal => .null
  | .returned value => value

/-- The greatest limit on nested calls. -/
def maxLimit : Nat := 2000

theorem usualLimit_le : 1000 ≤ maxLimit := by decide

/-- The settings of a run. -/
structure Rules where
  natives : Table Native := Native.standard
  limit : Nat := 1000
  limit_le : limit ≤ maxLimit := by exact usualLimit_le

/-- Changes the limit on nested calls, up to the greatest one. -/
def Rules.withLimit (r : Rules) (limit : Nat) : Rules :=
  { r with limit := min limit maxLimit, limit_le := Nat.min_le_right limit maxLimit }

/-- The rules, the rounds that a single repetition may take, and how bodies are executed. -/
structure Env (M : Type → Type := Eval) where
  rules : Rules
  rounds : Nat
  run : List Stmt → M Flow

end Script
