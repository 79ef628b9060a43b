import Script.Proofs.Operation

/-! # Rounds and the limit on nested calls

An outcome that is reached does not depend on the rounds that are left. Nor does it depend on the
limit on nested calls, unless it is the fault that tells of the limit. Both are cases of one
agreement between two runs. -/

namespace Script

open Evaluation

variable {α β : Type} {Excused : Cause → Prop}

/-- The second outcome is the first, which has a result as promised, unless the first gave up or
has an excuse. -/
def Outcome.Agrees (Excused : Cause → Prop) (Q : α → Prop) (second : Outcome α) :
    Outcome α → Prop
  | .done a m => Q a ∧ second = .done a m
  | .fault f m => Excused f.cause ∨ second = .fault f m
  | .exhausted => True

theorem Outcome.Agrees.eq {Q : α → Prop} {first second : Outcome α}
    (h : second.Agrees Excused Q first) (hgiven : first ≠ .exhausted)
    (hexcuse : ∀ f m, first = .fault f m → ¬ Excused f.cause) : second = first := by
  cases first with
  | done a m => exact h.2
  | fault f m =>
      rcases h with hf | hsecond
      · exact absurd hf (hexcuse f m rfl)
      · exact hsecond
  | exhausted => exact absurd rfl hgiven

/-! ## Agreement of two runs -/

/-- From every machine the second evaluation ends as the first does, up to excuses. -/
def Eval.Agree (Excused : Cause → Prop) (Q : α → Prop) (x y : Eval α) : Prop :=
  ∀ m, (y m).Agrees Excused Q (x m)

theorem Eval.Agree.mono {P Q : α → Prop} {x y : Eval α} (h : Eval.Agree Excused P x y)
    (hPQ : ∀ a, P a → Q a) : Eval.Agree Excused Q x y := by
  intro m
  have hm := h m
  cases hx : x m with
  | done a m' =>
      rw [hx] at hm
      exact ⟨hPQ a hm.1, hm.2⟩
  | fault f m' =>
      rw [hx] at hm
      exact hm
  | exhausted => trivial

theorem Eval.Agree.bind {P : α → Prop} {Q : β → Prop} {x y : Eval α} {f g : α → Eval β}
    (h : Eval.Agree Excused P x y) (hf : ∀ a, P a → Eval.Agree Excused Q (f a) (g a)) :
    Eval.Agree Excused Q (x >>= f) (y >>= g) := by
  intro m
  have hm := h m
  simp only [Bind.bind, Eval.bind]
  cases hx : x m with
  | done a m' =>
      rw [hx] at hm
      rw [hm.2]
      exact hf a hm.1 m'
  | fault e m' =>
      rw [hx] at hm
      rcases hm with he | hy
      · exact .inl he
      · exact .inr (by rw [hy])
  | exhausted => trivial

theorem Eval.Agree.inFrame {Q : α → Prop} {x y : Eval α} (h : Eval.Agree Excused Q x y)
    (frame : Frame) :
    Eval.Agree Excused (fun _ => True) (Evaluation.inFrame frame x)
      (Evaluation.inFrame frame y) := by
  intro m
  have hm := h { m with frame := frame, depth := m.depth + 1 }
  simp only [Evaluation.inFrame, Eval.inFrame]
  cases hx : x { m with frame := frame, depth := m.depth + 1 } with
  | done a m' =>
      rw [hx] at hm
      exact ⟨trivial, by rw [hm.2]⟩
  | fault e m' =>
      rw [hx] at hm
      rcases hm with he | hy
      · exact .inl he
      · exact .inr (by rw [hy])
  | exhausted => trivial

/-- Single effects agree with themselves. -/
def agreementEffects (Excused : Cause → Prop) : Effects Eval Eval where
  toTerms := Terms.free
  closed := Terms.closed_free
  Holds Q x y := Eval.Agree Excused Q x y
  mono h hPQ := h.mono hPQ
  pure ha _ := ⟨ha, rfl⟩
  bind hx hf := hx.bind hf
  raise _ _ := .inr rfl
  lookup? _ _ := ⟨fun _ _ => trivial, rfl⟩
  assign _ _ _ := ⟨trivial, rfl⟩
  declared? _ _ := ⟨fun _ _ => trivial, rfl⟩
  declare _ _ := ⟨trivial, rfl⟩
  freshBody _ := ⟨trivial, rfl⟩
  print _ _ := ⟨trivial, rfl⟩

def agreement (Excused : Cause → Prop) : Simulation Eval Eval where
  toEffects := agreementEffects Excused
  update := (agreementEffects Excused).update fun _ _ => trivial

/-- The second rules allow at least as many nested calls. If they allow more, the fault that tells
of the first limit is excused. -/
structure Rules.Extend (Excused : Cause → Prop) (rules rules' : Rules) : Prop where
  natives : rules'.natives = rules.natives
  limit_le : rules.limit ≤ rules'.limit
  excused : rules.limit = rules'.limit ∨ ∀ f, Excused (.depthExceeded rules.limit f)

theorem Rules.Extend.executes {env env' : Env} (h : Rules.Extend Excused env.rules env'.rules)
    (hrun : ∀ f : Function, Eval.Agree Excused (Flow.Good Terms.free) (env.run f.stmts)
      (env'.run f.stmts)) :
    (agreement Excused).Executes env env' := by
  intro f frame token _ _ _
  have hdepth : Eval.Agree Excused (fun _ => True) (depth : Eval Nat) depth :=
    fun _ => ⟨trivial, rfl⟩
  refine hdepth.bind fun d _ => ?_
  by_cases hover : env.rules.limit ≤ d
  · rw [if_pos hover]
    rcases h.excused with heq | hexcused
    · rw [← heq, if_pos hover]
      exact (agreement Excused).raise trivial
    · exact fun _ => .inl (hexcused f.name)
  · have hroom : ¬ env'.rules.limit ≤ d := fun hd => hover (Nat.le_trans h.limit_le hd)
    rw [if_neg hover, if_neg hroom]
    refine ((hrun f).inFrame frame).bind ?_
    rintro ⟨flow, final⟩ -
    exact fun _ => ⟨⟨trivial, fun _ _ => trivial⟩, rfl⟩

/-- With more rounds and a larger limit everything ends as it did before, up to excuses. -/
theorem Rules.Extend.respects {rules rules' : Rules} (h : rules.Extend Excused rules')
    (rounds extra : Nat) :
    (agreement Excused).Respects (rules.env rounds) (rules'.env (rounds + extra)) := by
  have hspare : (agreement Excused).Spares extra := fun _ _ _ _ => trivial
  refine Simulation.respects_env extra hspare h.natives (fun _ _ _ => trivial)
    (fun _ _ s _ => s.fits_free) ?_ rounds
  rintro env env' rfl rfl hrun
  exact h.executes fun f => hrun f trivial

theorem Rules.Extend.perform {rules rules' : Rules} (h : rules.Extend Excused rules')
    (rounds extra : Nat) (op : Operation) :
    Eval.Agree Excused (fun _ => True) (op.perform (rules.env rounds))
      (op.perform (rules'.env (rounds + extra))) :=
  (h.respects rounds extra).perform op op.fits_free

/-! ## Rounds -/

theorem Rules.extend_self (rules : Rules) : rules.Extend (fun _ => False) rules :=
  ⟨rfl, Nat.le_refl _, .inl rfl⟩

/-- More rounds do not change an outcome. -/
theorem Session.perform_add (s : Session) (op : Operation) {rounds : Nat} (extra : Nat)
    (h : s.perform rounds op.perform ≠ .exhausted) :
    s.perform (rounds + extra) op.perform = s.perform rounds op.perform :=
  (s.rules.extend_self.perform rounds extra op s.machine).eq h fun _ _ _ hf => hf

theorem Session.Ends.unique {s : Session} {op : Operation} {o o' : Outcome op.Result}
    (h : s.Ends op o) (h' : s.Ends op o') : o = o' := by
  obtain ⟨hgiven, n, rfl⟩ := h
  obtain ⟨hgiven', n', rfl⟩ := h'
  calc
    s.perform n op.perform = s.perform (n + n') op.perform := (s.perform_add op n' hgiven).symm
    _ = s.perform (n' + n) op.perform := by rw [Nat.add_comm]
    _ = s.perform n' op.perform := s.perform_add op n hgiven'

/-! ## Limits -/

/-- The outcome is a fault of the given class. -/
def Outcome.Raises (category : String) : Outcome α → Prop
  | .fault f _ => f.cause.category = category
  | _ => False

theorem Session.setLimit_extend (s : Session) {d₁ d₂ : Nat} (hd : d₁ ≤ d₂) :
    (s.setLimit d₁).rules.Extend (·.category = "StackOverflowError") (s.setLimit d₂).rules where
  natives := rfl
  limit_le := by
    simp only [Session.setLimit, Rules.withLimit]
    omega
  excused := .inr fun _ => rfl

/-- An operation that ends without exceeding the limit on nested calls ends with the same outcome,
that is the same result or fault and the same machine, under every larger limit. -/
theorem ends_with_larger_limit (s : Session) {d₁ d₂ : Nat} (hd : d₁ ≤ d₂) (op : Operation)
    (o : Outcome op.Result) (h : (s.setLimit d₁).Ends op o)
    (hcalm : ¬ o.Raises "StackOverflowError") :
    (s.setLimit d₂).Ends op o ∧ ∀ o', (s.setLimit d₂).Ends op o' → o' = o := by
  have hends : (s.setLimit d₂).Ends op o := by
    obtain ⟨hgiven, rounds, rfl⟩ := h
    refine ⟨hgiven, rounds, ?_⟩
    refine ((s.setLimit_extend hd).perform rounds 0 op s.machine).eq hgiven ?_
    intro f m hfault hover
    refine hcalm ?_
    have hplain : (s.setLimit d₁).perform rounds op.perform = .fault f m := hfault
    rw [hplain]
    exact hover
  exact ⟨hends, fun o' h' => h'.unique hends⟩

/-- A start that hands its arguments on to a second function. -/
def Program.echo : Program where
  token := {}
  body := [
    .func "echo" ["x"] [.ret (.ident "x" {}) {}] {},
    .func "main" ["args"] [.ret (.call (.ident "echo" {}) [.ident "args" {}] {}) {}] {}]

theorem echo_ends_with_larger_limit :
    ∃ o, (({} : Session).setLimit 2).Ends (.run .echo ["tea"]) o ∧
      ¬ o.Raises "StackOverflowError" ∧
      (({} : Session).setLimit 3000).Ends (.run .echo ["tea"]) o := by
  have hends : (({} : Session).setLimit 2).Ends (.run .echo ["tea"]) (.done _ _) :=
    ⟨nofun, 2, rfl⟩
  exact ⟨_, hends, nofun, (ends_with_larger_limit {} (by decide) _ _ hends nofun).1⟩

end Script
