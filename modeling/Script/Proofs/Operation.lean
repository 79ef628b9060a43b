import Script.Proofs.Simulation.Rounds

/-! # Operations of a host

Everything that a host can ask a session for, as one type, so that facts about all of it are
stated once. -/

namespace Script

inductive Operation where
  | evaluate (program : Program)
  | run (program : Program) (args : List Text)
  | callMain (args : Value)
  | expression (e : Expr)
  | invoke (f : Option Function) (args : List Value) (token : Token)
  | display (v : Value)

namespace Operation

/-- The type of the result. -/
@[reducible] def Result : Operation → Type
  | .evaluate _ => Unit
  | .display _ => Text
  | _ => Value

def perform {M : Type → Type} [Evaluation M] (op : Operation) (env : Env M) : M op.Result :=
  match op with
  | .evaluate program => env.evaluate program
  | .run program args => env.runMain program args
  | .callMain args => env.callMain args
  | .expression e => env.evalExpr e
  | .invoke f args token => env.invoke f args token
  | .display v => env.display v

/-- What an operation hands over keeps the terms. -/
def Fits (T : Terms) : Operation → Prop
  | .evaluate program => ∀ s ∈ program.body, s.Fits T
  | .run program _ => (∀ s ∈ program.body, s.Fits T) ∧ T.AtEntry
  | .callMain args => T.Good args ∧ T.AtEntry
  | .expression e => e.Fits T
  | .invoke f args token =>
    (∀ g, f = some g → T.Good (.function g)) ∧ (∀ v ∈ args, T.Good v) ∧ T.At token
  | .display v => T.Good v

theorem fits_free (op : Operation) : op.Fits Terms.free := by
  cases op with
  | evaluate program => exact fun s _ => s.fits_free
  | run program args => exact ⟨fun s _ => s.fits_free, fun _ _ => trivial⟩
  | expression e => exact e.fits_free
  | _ => simp [Fits, Terms.free, Terms.At, Terms.AtEntry]

/-- A program is evaluated, or run with arguments. -/
def ofProgram (program : Program) : Option (List Text) → Operation
  | none => .evaluate program
  | some args => .run program args

theorem fits_ofProgram {T : Terms} {program : Program} (h : ∀ s ∈ program.body, s.Fits T)
    (hentry : T.AtEntry) (args : Option (List Text)) : (ofProgram program args).Fits T := by
  cases args with
  | none => exact h
  | some args => exact ⟨h, hentry⟩

end Operation

/-- Related environments perform every operation in related ways. -/
theorem Simulation.Respects.perform {M N : Type → Type} [Evaluation M] [Evaluation N]
    {S : Simulation M N} {env : Env M} {env' : Env N} (h : S.Respects env env') (op : Operation)
    (hop : op.Fits S.toTerms) : S.Holds (fun _ => True) (op.perform env) (op.perform env') := by
  cases op with
  | evaluate program => exact h.evaluate hop
  | run program args => exact S.mono (h.runMain hop.2 hop.1 args) fun _ _ => trivial
  | callMain args => exact S.mono (h.callMain hop.2 hop.1) fun _ _ => trivial
  | expression e => exact S.mono (h.evalExpr e hop) fun _ _ => trivial
  | invoke f args token =>
      obtain ⟨hf, hargs, hat⟩ := hop
      exact S.mono (h.invoke hf hargs hat) fun _ _ => trivial
  | display v => exact h.display hop

theorem Native.standard_constants (name : Text) (v : Value) :
    Table.get? Native.standard name ≠ some (.constant v) := by
  have hall : Table.Each (fun n => ∀ v, n ≠ .constant v) Native.standard := by
    refine .ofList _ ?_
    simp
  exact fun hget => hall.get? hget v rfl

/-- An operation ends with an outcome if it needs only so many rounds for it. -/
def Session.Ends (s : Session) (op : Operation) (o : Outcome op.Result) : Prop :=
  o ≠ .exhausted ∧ ∃ rounds, s.perform rounds op.perform = o

end Script
