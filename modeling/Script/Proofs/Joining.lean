import Script.Proofs.Grammar.Seam
import Script.Proofs.Layout
import Script.Proofs.Scanning
import Script.Proofs.Sequence

/-!
# Joined programs

Two texts with a semicolon on a line between them are one text. The newline ends the name, number,
operator or comment that the first text ends with, and the semicolon its last statement. So the
statements of the first text are followed by those of the second, and they are evaluated in turn.
-/

namespace Script

open Grammar

/-! ## Texts -/

namespace Token

variable {file file' text text' : Text} {source source' : Option Source} {tokens w : List Token}
  {last : Token}

end Token

/-! ## Evaluation -/

/-- Once all statements of a block have been evaluated, further ones go on from there. -/
theorem Env.evalBlock_append {env : Env} {body : List Stmt} {m m' : Machine}
    (h : env.evalBlock body m = .done .normal m') (body' : List Stmt) :
    env.evalBlock (body ++ body') m = env.evalBlock body' m' := by
  rw [Env.evalBlock_followedBy, Eval.followedBy, Eval.bind_of_done h]

namespace Session

/-- All statements of a program are evaluated, with no fault and no `return` outside of functions,
and leave the given machine. -/
def Completes (s : Session) (p : Program) (m : Machine) : Prop :=
  ∃ rounds, s.perform rounds (·.evalBlock p.body) = .done .normal m

variable {s : Session} {p : Program} {m : Machine}

theorem Completes.ends (h : s.Completes p m) : s.Ends (.evaluate p) (.done () m) := by
  obtain ⟨rounds, hrounds⟩ := h
  refine ⟨by simp, rounds, ?_⟩
  simp only [perform] at hrounds
  simp only [perform, Operation.perform, Env.evaluate, bind, Eval.bind, hrounds]
  rfl

/-- More rounds do not change how a program completes. -/
theorem Completes.large (h : s.Completes p m) :
    ∃ least, ∀ rounds, least ≤ rounds →
      s.perform rounds (·.evalBlock p.body) = .done .normal m := by
  obtain ⟨least, hleast⟩ := h
  refine ⟨least, fun rounds hle => ?_⟩
  obtain ⟨extra, rfl⟩ := Nat.exists_eq_add_of_le hle
  have hagree := (s.rules.extend_self.respects least extra).evalBlock p.body
    (fun stmt _ => stmt.fits_free) s.machine
  have hgiven : s.perform least (·.evalBlock p.body) ≠ .exhausted := by simp [hleast]
  exact (hagree.eq hgiven fun _ _ _ hf => hf).trans hleast

/-- After all statements of one program, those of another are evaluated from where it ended. -/
theorem Completes.append (h : s.Completes p m) (token : Token) (p' : Program) :
    ∃ least, ∀ rounds, least ≤ rounds →
      s.perform rounds (Operation.evaluate ⟨token, p.body ++ p'.body⟩).perform =
        perform { s with machine := m } rounds (Operation.evaluate p').perform := by
  obtain ⟨least, hleast⟩ := h.large
  refine ⟨least, fun rounds hle => ?_⟩
  have hblock := Env.evalBlock_append (hleast rounds hle) p'.body
  simp only [perform, Operation.perform, Env.evaluate, bind, Eval.bind, hblock]

end Session

end Script
