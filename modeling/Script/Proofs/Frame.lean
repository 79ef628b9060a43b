import Script.Proofs.Memory.Host
import Script.Proofs.Simulation.Contract

/-! # Frame effect of evaluations

An evaluation changes only the variables that it assigns in its own frame. Calls work on frames of
their own and on copies, so nothing that a callee does reaches a variable of the caller. -/

namespace Script

/-- The variable that an assignment sets or changes a part of. -/
def Expr.targetName? : Expr → Option Text
  | .assign target _ _ => target.root.name?
  | _ => none

/-- The variables that the assignments in an expression are about. -/
def Expr.assigned (e : Expr) : List Text :=
  e.parts.filterMap Expr.targetName?

/-- The variables that the assignments in a statement are about, apart from those in the bodies of
declarations. -/
def Stmt.assigned (s : Stmt) : List Text :=
  s.parts.flatMap fun p => p.exprs.flatMap Expr.assigned

/-- A variable has the same value in two frames, or none in both. -/
def Frame.SameAt (x : Text) (frame frame' : Frame) : Prop :=
  Table.get? frame' x = Table.get? frame x

/-- The terms that allow everything but to assign one variable. -/
def Terms.sparing (x : Text) : Terms :=
  { Terms.free with Assignable := (· ≠ x), Updatable := (· ≠ x) }

theorem Terms.closed_sparing (x : Text) : (Terms.sparing x).Closed := by
  constructor <;> simp [Terms.sparing, Terms.free, Table.Each, Terms.At]

theorem Expr.fits_sparing {x : Text} {e : Expr} (h : x ∉ e.assigned) :
    e.Fits (Terms.sparing x) := by
  have htarget : ∀ target value t, .assign target value t ∈ e.parts →
      target.root.name? ≠ some x :=
    fun target value t hp hx => h (List.mem_filterMap.mpr ⟨_, hp, hx⟩)
  refine Expr.fits_of_assign (fun _ _ => trivial) ?_ ?_
  · rintro target value t name hp hplace rfl
    obtain ⟨token, rfl⟩ := Expr.eq_of_whole hplace
    exact htarget _ value t hp rfl
  · intro target value t name token hp hplace
    refine ⟨?_, fun _ _ => trivial⟩
    rintro rfl
    exact htarget target value t hp (by rw [(Expr.root_of_inside hplace).1]; rfl)

theorem Stmt.fits_sparing {x : Text} {s : Stmt} (h : x ∉ s.assigned) :
    s.Fits (Terms.sparing x) := by
  refine Stmt.fits_of_exprs (fun _ _ => trivial) (fun _ _ => trivial) trivial fun p hp e he => ?_
  apply Expr.fits_sparing
  intro hx
  exact h (List.mem_flatMap.mpr ⟨p, hp, List.mem_flatMap.mpr ⟨e, he, hx⟩⟩)

/-- The contract to leave one variable of the running frame alone. -/
def Contract.sparing (x : Text) : Contract where
  toTerms := Terms.sparing x
  closed := Terms.closed_sparing x
  Inv _ := True
  Seen _ := True
  Step m m' := Frame.SameAt x m.frame m'.frame
  MayGiveUp := True
  seen _ := trivial
  refl _ := rfl
  trans h₁ h₂ := Eq.trans h₂ h₁
  frame h := Contract.free.frame h
  heap h := Contract.free.heap h
  assign hname _ _ := ⟨trivial, Table.get?_insert_of_ne hname _ _⟩
  declare _ _ := ⟨trivial, rfl⟩
  freshBody _ := ⟨trivial, rfl⟩
  print _ _ := ⟨trivial, rfl⟩

/-- Bodies may assign the variable in frames of their own, so they need not keep the contract of
their callers. It is enough that the frame of the caller comes back. -/
theorem Contract.sparing_encloses_free (x : Text) (rules : Rules) :
    (Contract.sparing x).Encloses Contract.free rules where
  entering _ _ _ := trivial
  leaving _ _ _ := ⟨trivial, rfl⟩

theorem Contract.respects_sparing (x : Text) (rules : Rules) (n : Nat) :
    ((Contract.sparing x).simulation fun _ h => h).Respects (rules.env n) (rules.env n) := by
  have hspare : ((Contract.sparing x).simulation fun _ h => h).Spares 0 := spares _ trivial
  have hexec : ((Contract.sparing x).simulation fun _ h => h).Executes (rules.env n)
      (rules.env n) :=
    (Contract.sparing_encloses_free x rules).executes rfl _ fun f _ k _ =>
      Contract.runBody_free rules n f.stmts k
  exact Simulation.Executes.respects hexec hspare rfl rfl fun _ _ _ => trivial

/-! ## Runs on the memory -/

/-- Unless it was given up, a run leaves a variable of its level as it was, and the variables of the
level still have cells of their own. -/
def Exec.Spares {α : Type} (x : Exec α) (level : Nat) (name : Text) (c : Runtime) : Prop :=
  (x c).1 ≠ .exhausted →
    c.SameAt level name (x c).2 ∧ (x c).2.Orderly Charter.free level

/-- What a run on values does not change, the run on the memory does not change either. -/
theorem Follows.spares {α β : Type} {level : Nat} {x : Exec α} {y : Eval β}
    {Q : α → β → Assertion} (h : Follows Charter.free level 1 x y Q) {c : Runtime} {m : Machine}
    (hc : State Charter.free level c m 1) {name : Text}
    (hy : (y m).Leaves (Frame.SameAt name m.frame ·.frame)) : x.Spares level name c := by
  have hrun := h c m 1 (by rwa [one_mul])
  unfold Exec.Spares Runtime.SameAt
  generalize x c = r at hrun
  generalize y m = o at hrun hy
  intro hends
  cases hrun with
  | done hs _ =>
      refine ⟨?_, _, hs.imp (Assertion.entails_one _)⟩
      rw [hs.value?_eq, hc.value?_eq]
      exact hy
  | fault hs _ =>
      refine ⟨?_, _, hs⟩
      rw [hs.value?_eq, hc.value?_eq]
      exact hy
  | exhausted _ => exact absurd rfl hends

/-- One object in two variables. -/
def Runtime.sharing : Runtime where
  frames := #[[("a", .object 0), ("b", .object 0)]]
  memory := ⟨#[.fields [("p", .null)]]⟩

-- Where two variables share a cell, setting a property of one does change the other.
example : ((({} : Rules).engine 0).evalExpr 0
    (.assign (.member (.ident "a" {}) "p" {}) (.boolean true {}) {}) Runtime.sharing).2.value? 0
      "b" = some (.object [("p", .boolean true)]) :=
  rfl

end Script
