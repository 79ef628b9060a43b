import Script.Eval.Stmt

/-! # Evaluations in sequence

Evaluations obey the laws of monads, and what a sequence ends with comes from its parts. -/

namespace Script

namespace Eval

variable {α β : Type} {x : Eval α} {f : α → Eval β} {m m' : Machine}

theorem bind_of_done {a : α} (h : x m = .done a m') : (x >>= f) m = f a m' := by
  simp only [bind, Eval.bind, h]

theorem bind_of_fault {e : Fault} (h : x m = .fault e m') : (x >>= f) m = .fault e m' := by
  simp only [bind, Eval.bind, h]

theorem bind_of_exhausted (h : x m = .exhausted) : (x >>= f) m = .exhausted := by
  simp only [bind, Eval.bind, h]

theorem bind_eq_done_iff {b : β} :
    (x >>= f) m = .done b m' ↔ ∃ a m₁, x m = .done a m₁ ∧ f a m₁ = .done b m' := by
  constructor
  · intro h
    cases hx : x m with
    | done a m₁ =>
      rw [bind_of_done hx] at h
      exact ⟨a, m₁, rfl, h⟩
    | fault e m₁ =>
      rw [bind_of_fault hx] at h
      cases h
    | exhausted =>
      rw [bind_of_exhausted hx] at h
      cases h
  · rintro ⟨a, m₁, hx, hf⟩
    rw [bind_of_done hx, hf]

instance : LawfulMonad Eval := by
  refine LawfulMonad.mk' Eval ?_ ?_ ?_
  · intro α x
    funext m
    change Eval.bind x Eval.pure m = x m
    unfold Eval.bind
    cases x m <;> rfl
  · intro α β a f
    rfl
  · intro α β γ x f g
    funext m
    change Eval.bind (Eval.bind x f) g m = Eval.bind x (fun a => Eval.bind (f a) g) m
    unfold Eval.bind
    cases x m <;> rfl

end Eval

/-! ## Statements in sequence -/

namespace Eval

/-- Goes on with a second evaluation unless the first returns. -/
def followedBy (first second : Eval Flow) : Eval Flow := do
  match ← first with
  | .normal => second
  | .returned v => return .returned v

theorem followedBy_assoc (x y z : Eval Flow) :
    (x.followedBy y).followedBy z = x.followedBy (y.followedBy z) := by
  simp only [followedBy, bind_assoc]
  congr 1
  funext flow
  cases flow <;> rfl

theorem followedBy_normal (x : Eval Flow) : x.followedBy (pure .normal) = x := by
  have hpure : x.followedBy (pure .normal) = x >>= pure := by
    simp only [followedBy]
    congr 1
    funext flow
    cases flow <;> rfl
  rw [hpure, bind_pure]

theorem followedBy_eq_returned_iff {x y : Eval Flow} {v : Value} {m m' : Machine} :
    x.followedBy y m = .done (.returned v) m' ↔
      x m = .done (.returned v) m' ∨
        ∃ m₁, x m = .done .normal m₁ ∧ y m₁ = .done (.returned v) m' := by
  rw [followedBy, bind_eq_done_iff]
  constructor
  · rintro ⟨flow, m₁, hx, hy⟩
    cases flow with
    | normal => exact .inr ⟨m₁, hx, hy⟩
    | returned w =>
      cases hy
      exact .inl hx
  · rintro (hx | ⟨m₁, hx, hy⟩)
    · exact ⟨_, m', hx, rfl⟩
    · exact ⟨_, m₁, hx, hy⟩

theorem followedBy_eq_normal_iff {x y : Eval Flow} {m m' : Machine} :
    x.followedBy y m = .done .normal m' ↔
      ∃ m₁, x m = .done .normal m₁ ∧ y m₁ = .done .normal m' := by
  rw [followedBy, bind_eq_done_iff]
  constructor
  · rintro ⟨flow, m₁, hx, hy⟩
    cases flow with
    | normal => exact ⟨m₁, hx, hy⟩
    | returned w => cases hy
  · rintro ⟨m₁, hx, hy⟩
    exact ⟨_, m₁, hx, hy⟩

end Eval

namespace Env

variable (env : Env)

theorem evalBlock_cons (s : Stmt) (rest : List Stmt) :
    env.evalBlock (s :: rest) = (env.evalStmt s).followedBy (env.evalBlock rest) := by
  rw [evalBlock]
  rfl

theorem evalBlock_singleton (s : Stmt) : env.evalBlock [s] = env.evalStmt s := by
  rw [evalBlock_cons, evalBlock, Eval.followedBy_normal]

theorem evalBlock_followedBy (body rest : List Stmt) :
    env.evalBlock (body ++ rest) = (env.evalBlock body).followedBy (env.evalBlock rest) := by
  induction body with
  | nil =>
    rw [List.nil_append, evalBlock]
    rfl
  | cons s body ih =>
    rw [List.cons_append, evalBlock_cons, evalBlock_cons, ih, Eval.followedBy_assoc]
end Env

end Script
