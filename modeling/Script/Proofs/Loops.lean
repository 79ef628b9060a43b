import Script.Proofs.Sequence
import Script.Session

/-!
# Loops

A `for` loop is its first part followed by a `while` loop whose body ends with the last part of the
header.
-/

namespace Script

namespace Env

variable (env : Env)

/-! ## Loops as repetitions -/

theorem loopCondition_of_isHole {condition : Expr} (h : condition.isHole = false) :
    env.loopCondition condition = (return (← env.evalExpr condition).isTrue) := by
  rw [loopCondition, h]
  rfl

theorem loopCondition_eq_true_iff {condition : Expr} (h : condition.isHole = false)
    {m m' : Machine} :
    env.loopCondition condition m = .done true m' ↔
      ∃ v, env.evalExpr condition m = .done v m' ∧ v.isTrue := by
  rw [env.loopCondition_of_isHole h, Eval.bind_eq_done_iff]
  constructor
  · rintro ⟨v, m₁, hv, htrue⟩
    have hpure : Outcome.done v.isTrue m₁ = .done true m' := htrue
    obtain ⟨hv', rfl⟩ : v.isTrue = true ∧ m₁ = m' := by simpa using hpure
    exact ⟨v, hv, hv'⟩
  · rintro ⟨v, hv, htrue⟩
    refine ⟨v, m', hv, ?_⟩
    rw [htrue]
    rfl

theorem evalStmt_forLoop (init : Stmt) (condition post : Expr) (body : List Stmt) (t t' : Token) :
    env.evalStmt (.forLoop init condition post body t) =
      (env.evalStmt init).followedBy (repeatWhile (env.loopCondition condition)
        (env.evalBlock (body ++ [.expr post t'])) env.rounds) := by
  rw [evalBlock_followedBy, evalBlock_singleton, evalStmt, evalStmt, Eval.followedBy]
  congr 1
  funext flow
  cases flow with
  | returned v => rfl
  | normal =>
    refine congrArg (fun round => repeatWhile _ round _) ?_
    rw [Eval.followedBy]
    congr 1
    funext flow
    cases flow <;> rfl

theorem evalStmt_whileLoop {condition : Expr} (h : condition.isHole = false) (body : List Stmt)
    (t : Token) :
    env.evalStmt (.whileLoop condition body t) =
      repeatWhile (env.loopCondition condition) (env.evalBlock body) env.rounds := by
  rw [evalStmt, env.loopCondition_of_isHole h]

/-! ## Rounds -/

theorem repeatWhile_eq_returned_iff {condition : Eval Bool} {body : Eval Flow} {n : Nat}
    {v : Value} {m m' : Machine} :
    repeatWhile condition body (n + 1) m = .done (.returned v) m' ↔
      ∃ m₁, condition m = .done true m₁ ∧ (body m₁ = .done (.returned v) m' ∨
        ∃ m₂, body m₁ = .done .normal m₂ ∧
          repeatWhile condition body n m₂ = .done (.returned v) m') := by
  rw [repeatWhile, Eval.bind_eq_done_iff]
  constructor
  · rintro ⟨b, m₁, hcondition, hrest⟩
    cases b with
    | true => exact ⟨m₁, hcondition, Eval.followedBy_eq_returned_iff.mp hrest⟩
    | false => cases hrest
  · rintro ⟨m₁, hcondition, hrest⟩
    exact ⟨true, m₁, hcondition, Eval.followedBy_eq_returned_iff.mpr hrest⟩

/-- Full rounds of a `for` loop: each time the condition holds, the body comes to its end, and the
last part of the header is evaluated. -/
inductive Rounds (condition post : Expr) (body : List Stmt) : Nat → Machine → Machine → Prop
  | none (m : Machine) : Rounds condition post body 0 m m
  | round {n : Nat} {m m₁ m₂ m₃ m' : Machine} {v w : Value} :
    env.evalExpr condition m = .done v m₁ → v.isTrue → env.evalBlock body m₁ = .done .normal m₂ →
    env.evalExpr post m₂ = .done w m₃ → Rounds condition post body n m₃ m' →
    Rounds condition post body (n + 1) m m'

/-- After full rounds the condition holds once more, and the body returns. -/
def ReturnsAfter (condition post : Expr) (body : List Stmt) (n : Nat) (v : Value)
    (m m' : Machine) : Prop :=
  ∃ m₁ m₂ u, env.Rounds condition post body n m m₁ ∧ env.evalExpr condition m₁ = .done u m₂ ∧
    u.isTrue ∧ env.evalBlock body m₂ = .done (.returned v) m'

theorem evalStmt_expr_eq_done_iff {e : Expr} {t : Token} {flow : Flow} {m m' : Machine} :
    env.evalStmt (.expr e t) m = .done flow m' ↔
      flow = .normal ∧ ∃ v, env.evalExpr e m = .done v m' := by
  rw [evalStmt, Eval.bind_eq_done_iff]
  constructor
  · rintro ⟨v, m₁, hv, hpure⟩
    cases hpure
    exact ⟨rfl, v, hv⟩
  · rintro ⟨rfl, v, hv⟩
    exact ⟨v, m', hv, rfl⟩

/-- Where the body of a round returns, the last part of the header is not evaluated. -/
theorem round_eq_returned_iff {post : Expr} {body : List Stmt} {t : Token} {v : Value}
    {m m' : Machine} :
    env.evalBlock (body ++ [.expr post t]) m = .done (.returned v) m' ↔
      env.evalBlock body m = .done (.returned v) m' := by
  simp [evalBlock_followedBy, evalBlock_singleton, Eval.followedBy_eq_returned_iff,
    evalStmt_expr_eq_done_iff]

theorem round_eq_normal_iff {post : Expr} {body : List Stmt} {t : Token} {m m' : Machine} :
    env.evalBlock (body ++ [.expr post t]) m = .done .normal m' ↔
      ∃ m₁, env.evalBlock body m = .done .normal m₁ ∧ ∃ w, env.evalExpr post m₁ = .done w m' := by
  simp [evalBlock_followedBy, evalBlock_singleton, Eval.followedBy_eq_normal_iff,
    evalStmt_expr_eq_done_iff]

variable {env} in
theorem ReturnsAfter.succ_iff {condition post : Expr} {body : List Stmt} {n : Nat} {v : Value}
    {m m' : Machine} :
    env.ReturnsAfter condition post body (n + 1) v m m' ↔
      ∃ u m₁ m₂ w m₃, env.evalExpr condition m = .done u m₁ ∧ u.isTrue ∧
        env.evalBlock body m₁ = .done .normal m₂ ∧ env.evalExpr post m₂ = .done w m₃ ∧
        env.ReturnsAfter condition post body n v m₃ m' := by
  constructor
  · rintro ⟨m₄, m₅, u', hrounds, hlast⟩
    cases hrounds with
    | round hcondition htrue hbody hpost hrounds =>
      exact ⟨_, _, _, _, _, hcondition, htrue, hbody, hpost, m₄, m₅, u', hrounds, hlast⟩
  · rintro ⟨u, m₁, m₂, w, m₃, hcondition, htrue, hbody, hpost, m₄, m₅, u', hrounds, hlast⟩
    exact ⟨m₄, m₅, u', .round hcondition htrue hbody hpost hrounds, hlast⟩

theorem repeatWhile_round_eq_returned_iff {condition post : Expr} (h : condition.isHole = false)
    {body : List Stmt} {t : Token} {n : Nat} {v : Value} {m m' : Machine} :
    repeatWhile (env.loopCondition condition) (env.evalBlock (body ++ [.expr post t])) n m =
        .done (.returned v) m' ↔
      ∃ k < n, env.ReturnsAfter condition post body k v m m' := by
  induction n generalizing m with
  | zero =>
    constructor
    · intro hdone
      cases hdone
    · rintro ⟨k, hk, -⟩
      exact absurd hk (Nat.not_lt_zero k)
  | succ n ih =>
    rw [repeatWhile_eq_returned_iff]
    simp only [round_eq_returned_iff, round_eq_normal_iff, env.loopCondition_eq_true_iff h, ih]
    constructor
    · rintro ⟨m₁, ⟨u, hcondition, htrue⟩, hbody | ⟨m₃, ⟨m₂, hbody, w, hpost⟩, k, hk, hreturns⟩⟩
      · exact ⟨0, Nat.succ_pos n, m, m₁, u, .none m, hcondition, htrue, hbody⟩
      · exact ⟨k + 1, Nat.succ_lt_succ hk, ReturnsAfter.succ_iff.mpr
          ⟨u, m₁, m₂, w, m₃, hcondition, htrue, hbody, hpost, hreturns⟩⟩
    · rintro ⟨k, hk, hreturns⟩
      cases k with
      | zero =>
        obtain ⟨m₁, m₂, u, hrounds, hcondition, htrue, hbody⟩ := hreturns
        cases hrounds
        exact ⟨m₂, ⟨u, hcondition, htrue⟩, .inl hbody⟩
      | succ k =>
        obtain ⟨u, m₁, m₂, w, m₃, hcondition, htrue, hbody, hpost, hreturns⟩ :=
          ReturnsAfter.succ_iff.mp hreturns
        exact ⟨m₁, ⟨u, hcondition, htrue⟩, .inr ⟨m₃, ⟨m₂, hbody, w, hpost⟩, k,
          Nat.lt_of_succ_lt_succ hk, hreturns⟩⟩

end Env

/-- A `for` loop with a condition has the outcome of its first part followed by a `while` loop whose
body ends with the last part of the header, also where the first or the last part is missing: the
same result or fault and the same machine in any number of rounds, so that one never ends if the
other does not. It returns where its first part does, or where its body does after full rounds, and
leaves the machine as it is there: the last part of the header is not evaluated any more. -/
theorem for_loop_as_while (s : Session) (rounds : Nat) (init : Stmt) {condition : Expr}
    (hcondition : condition.isHole = false) (post : Expr) (body : List Stmt)
    (t t' t'' : Token) :
    s.perform rounds (·.evalStmt (.forLoop init condition post body t)) =
      s.perform rounds
        (·.evalBlock [init, .whileLoop condition (body ++ [.expr post t']) t'']) ∧
    ∀ v m, s.perform rounds (·.evalStmt (.forLoop init condition post body t)) =
        .done (.returned v) m ↔
      s.perform rounds (·.evalStmt init) = .done (.returned v) m ∨
        ∃ m₁, s.perform rounds (·.evalStmt init) = .done .normal m₁ ∧
          ∃ k < rounds, (s.rules.env rounds).ReturnsAfter condition post body k v m₁ m := by
  simp only [Session.perform, Env.evalStmt_forLoop _ init condition post body t t']
  constructor
  · rw [Env.evalBlock_cons, Env.evalBlock_singleton, Env.evalStmt_whileLoop _ hcondition]
  · intro v m
    rw [Eval.followedBy_eq_returned_iff]
    simp only [Env.repeatWhile_round_eq_returned_iff _ hcondition]
    rfl

/-- The loop `for (i = true; i; i = false) { return i }`: it returns in its first round, with `i`
still true. -/
theorem for_loop_left_by_return :
    let i : Expr := .ident "i" {}
    let init : Stmt := .expr (.assign i (.boolean true {}) {}) {}
    let post : Expr := .assign i (.boolean false {}) {}
    let m : Machine := { frame := [("i", .boolean true)] }
    i.isHole = false ∧
      ({} : Session).perform 1 (·.evalStmt (.forLoop init i post [.ret i {}] {})) =
        .done (.returned (.boolean true)) m ∧
      ({} : Session).perform 1
          (·.evalBlock [init, .whileLoop i ([.ret i {}] ++ [.expr post {}]) {}]) =
        .done (.returned (.boolean true)) m := by
  intro i init post m
  have hloop := for_loop_as_while {} 1 init (rfl : i.isHole = false) post [.ret i {}] {} {} {}
  have hreturns : ({} : Rules).env 1 |>.ReturnsAfter i post [.ret i {}] 0 (.boolean true) m m :=
    ⟨m, m, .boolean true, .none m, rfl, rfl, rfl⟩
  have hdone := (hloop.2 (.boolean true) m).mpr (.inr ⟨m, rfl, 0, Nat.one_pos, hreturns⟩)
  exact ⟨rfl, hdone, hloop.1 ▸ hdone⟩

end Script
