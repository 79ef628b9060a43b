import Script.Proofs.Simulation.Rounds
import Script.Proofs.Trace

/-! # Contracts of single runs

A contract says what holds at every moment of a run, what is the same before and after, and which
values and faults may come up. The traced run comes along with the plain one, so a contract also
shows that both have the same outcome. -/

namespace Script

open Evaluation

/-- What holds at the end of a run. -/
def Outcome.Meets {α : Type} (done : α → Machine → Prop) (fault : Fault → Machine → Prop)
    (exhausted : Prop) : Outcome α → Prop
  | .done a m => done a m
  | .fault f m => fault f m
  | .exhausted => exhausted

theorem Outcome.Meets.mono {α : Type} {P P' : α → Machine → Prop} {F F' : Fault → Machine → Prop}
    {E E' : Prop} {o : Outcome α} (h : o.Meets P F E) (hdone : ∀ a m, P a m → P' a m)
    (hfault : ∀ f m, F f m → F' f m) (hexhausted : E → E') : o.Meets P' F' E' := by
  cases o with
  | done a m => exact hdone a m h
  | fault f m => exact hfault f m h
  | exhausted => exact hexhausted h

/-- What holds of the machine that a run leaves behind, with a result or a fault. -/
def Outcome.Leaves {α : Type} (P : Machine → Prop) : Outcome α → Prop :=
  Outcome.Meets (fun _ => P) (fun _ => P) True

structure Contract extends Terms where
  closed : toTerms.Closed
  /-- Holds before and after every effect in the running frame. -/
  Inv : Moment → Prop
  /-- Holds at every moment, also inside the bodies that are executed. -/
  Seen : Moment → Prop
  /-- Compares the machines before and after. -/
  Step : Machine → Machine → Prop
  /-- Whether a run may give up. -/
  MayGiveUp : Prop
  seen {k : Moment} : Inv k → Seen k
  refl (m : Machine) : Step m m
  trans {m₁ m₂ m₃ : Machine} : Step m₁ m₂ → Step m₂ m₃ → Step m₁ m₃
  frame {k : Moment} : Inv k → Table.Each Good k.machine.frame
  heap {k : Moment} : Inv k → Table.Each Good k.machine.heap
  assign {k : Moment} {name : Text} {v : Value} : Assignable name → Good v → Inv k →
    Inv ⟨{ k.machine with frame := Table.insert name v k.machine.frame }, k.waiting⟩ ∧
      Step k.machine { k.machine with frame := Table.insert name v k.machine.frame }
  declare {k : Moment} {name : Text} {v : Value} : Declarable name v → Inv k →
    Inv ⟨{ k.machine with heap := Table.insert name v k.machine.heap }, k.waiting⟩ ∧
      Step k.machine { k.machine with heap := Table.insert name v k.machine.heap }
  freshBody {k : Moment} : Inv k →
    Inv ⟨{ k.machine with nextBody := k.machine.nextBody + 1 }, k.waiting⟩ ∧
      Step k.machine { k.machine with nextBody := k.machine.nextBody + 1 }
  print {k : Moment} (text : Text) : Inv k →
    Inv ⟨{ k.machine with printed := text :: k.machine.printed }, k.waiting⟩ ∧
      Step k.machine { k.machine with printed := text :: k.machine.printed }

namespace Contract

variable {α β : Type} (C : Contract)

/-- An outcome that keeps the contract from a given moment on. -/
def Fulfils (Q : α → Prop) (k : Moment) : Outcome α → Prop :=
  Outcome.Meets (fun a m => Q a ∧ C.Inv ⟨m, k.waiting⟩ ∧ C.Step k.machine m)
    (fun f m => C.Raisable f.cause f.location ∧ C.Inv ⟨m, k.waiting⟩ ∧ C.Step k.machine m)
    C.MayGiveUp

/-- A traced run and a plain one with the same outcome that keep the contract. -/
structure Holds (Q : α → Prop) (x : Traced α) (y : Eval α) (k : Moment) : Prop where
  outcome_eq : (x k).2 = y k.machine
  moments : ∀ j ∈ (x k).1, C.Seen j
  fulfils : C.Fulfils Q k (y k.machine)

variable {C}

theorem Fulfils.mono {P Q : α → Prop} {k : Moment} {o : Outcome α} (h : C.Fulfils P k o)
    (hPQ : ∀ a, P a → Q a) : C.Fulfils Q k o := by
  cases o with
  | done a m => exact ⟨hPQ a h.1, h.2⟩
  | fault f m => exact h
  | exhausted => exact h

/-- A contract kept from a later moment on is kept from an earlier one on. -/
theorem Fulfils.after {Q : α → Prop} {k : Moment} {m : Machine} {o : Outcome α}
    (hstep : C.Step k.machine m) (h : C.Fulfils Q ⟨m, k.waiting⟩ o) : C.Fulfils Q k o := by
  cases o with
  | done a m' => exact ⟨h.1, h.2.1, C.trans hstep h.2.2⟩
  | fault f m' => exact ⟨h.1, h.2.1, C.trans hstep h.2.2⟩
  | exhausted => exact h

theorem Fulfils.leaves {Q : α → Prop} {P : Machine → Prop} {k : Moment} {o : Outcome α}
    (h : C.Fulfils Q k o) (hP : ∀ m, C.Step k.machine m → P m) : o.Leaves P := by
  cases o with
  | done a m => exact hP m h.2.2
  | fault f m => exact hP m h.2.2
  | exhausted => trivial

theorem Holds.of_run {Q : α → Prop} {x : Traced α} {y : Eval α} {k : Moment}
    {past : List Moment} {o : Outcome α} (hx : x k = (past, o)) (hy : y k.machine = o)
    (hpast : ∀ j ∈ past, C.Seen j) (ho : C.Fulfils Q k o) : C.Holds Q x y k := by
  refine ⟨?_, ?_, ?_⟩
  · rw [hx, hy]
  · rw [hx]
    exact hpast
  · rw [hy]
    exact ho

theorem Holds.single {Q : α → Prop} {y : Eval α} {k : Moment}
    (h : C.Fulfils Q k (y k.machine)) : C.Holds Q (Traced.single y) y k := by
  cases ho : y k.machine with
  | done a m =>
      rw [ho] at h
      exact .of_run (by rw [Traced.single, ho]) ho (by simpa using C.seen h.2.1) h
  | fault f m =>
      rw [ho] at h
      exact .of_run (by rw [Traced.single, ho]) ho (by simpa using C.seen h.2.1) h
  | exhausted =>
      rw [ho] at h
      exact .of_run (by rw [Traced.single, ho]) ho (by simp) h

theorem Holds.bind {P : α → Prop} {Q : β → Prop} {x : Traced α} {y : Eval α}
    {f : α → Traced β} {g : α → Eval β} {k : Moment} (hx : C.Holds P x y k)
    (hf : ∀ a m, y k.machine = .done a m → P a → C.Inv ⟨m, k.waiting⟩ →
      C.Holds Q (f a) (g a) ⟨m, k.waiting⟩) :
    C.Holds Q (x >>= f) (y >>= g) k := by
  obtain ⟨houtcome, hmoments, hfulfils⟩ := hx
  cases hxk : x k with
  | mk past o =>
      rw [hxk] at houtcome hmoments
      dsimp only at houtcome hmoments
      rw [← houtcome] at hfulfils
      cases o with
      | done a m =>
          obtain ⟨ha, hinv, hstep⟩ := hfulfils
          have hnext := hf a m houtcome.symm ha hinv
          have hrun : (x >>= f) k = (past ++ (f a ⟨m, k.waiting⟩).1, g a m) := by
            simp only [Bind.bind, Traced.bind, hxk, hnext.outcome_eq]
          refine .of_run hrun ?_ ?_ (hnext.fulfils.after hstep)
          · simp only [Bind.bind, Eval.bind, ← houtcome]
          · intro j hj
            rcases List.mem_append.mp hj with hj | hj
            · exact hmoments j hj
            · exact hnext.moments j hj
      | fault e m =>
          refine .of_run (o := .fault e m) ?_ ?_ hmoments hfulfils
          · simp only [Bind.bind, Traced.bind, hxk]
          · simp only [Bind.bind, Eval.bind, ← houtcome]
      | exhausted =>
          refine .of_run (o := .exhausted) ?_ ?_ hmoments hfulfils
          · simp only [Bind.bind, Traced.bind, hxk]
          · simp only [Bind.bind, Eval.bind, ← houtcome]

variable (C)

/-- Every effect keeps the contract. -/
def effects : Effects Traced Eval where
  toTerms := C.toTerms
  closed := C.closed
  Holds Q x y := ∀ k, C.Inv k → C.Holds Q x y k
  mono h hPQ k hk :=
    ⟨(h k hk).outcome_eq, (h k hk).moments, (h k hk).fulfils.mono hPQ⟩
  pure ha k hk := ⟨rfl, by simp [Pure.pure, Traced.pure], ha, hk, C.refl _⟩
  bind hx hf k hk := (hx k hk).bind fun a _ _ ha hm => hf a ha _ hm
  raise hraise _ hk := Holds.single ⟨hraise, hk, C.refl _⟩
  lookup? _ _ hk := Holds.single ⟨fun _ hv => (C.frame hk).get? hv, hk, C.refl _⟩
  assign hname hv _ hk := Holds.single ⟨trivial, C.assign hname hv hk⟩
  declared? _ _ hk := Holds.single ⟨fun _ hv => (C.heap hk).get? hv, hk, C.refl _⟩
  declare hv _ hk := Holds.single ⟨trivial, C.declare hv hk⟩
  freshBody _ hk := Holds.single ⟨trivial, C.freshBody hk⟩
  print text _ hk := Holds.single ⟨trivial, C.print text hk⟩

/-- The simulation of a contract that tells no parts of variables from whole ones. -/
def simulation (h : ∀ name, C.Updatable name → C.Assignable name) : Simulation Traced Eval where
  toEffects := C.effects
  update := C.effects.update h

/-! ## Bodies -/

/-- A body that is executed in its own frame and keeps the contract of its caller. -/
structure HoldsInside (frame : Frame) (x : Traced Flow) (y : Eval Flow) (k : Moment) : Prop where
  outcome_eq : (x (Traced.entering frame k)).2 = y (Traced.entering frame k).machine
  entering : C.Seen (Traced.entering frame k)
  moments : ∀ j ∈ (x (Traced.entering frame k)).1, C.Seen j
  fulfils : (y (Traced.entering frame k).machine).Meets
    (fun flow m => (C.Good flow.value ∧ Table.Each C.Good m.frame) ∧
      C.Inv (Traced.leaving k m) ∧ C.Step k.machine (Traced.leaving k m).machine)
    (fun f m => C.Raisable f.cause f.location ∧
      C.Inv (Traced.leaving k m) ∧ C.Step k.machine (Traced.leaving k m).machine)
    C.MayGiveUp

variable {C}

theorem HoldsInside.inFrame {frame : Frame} {x : Traced Flow} {y : Eval Flow} {k : Moment}
    (h : C.HoldsInside frame x y k) :
    C.Holds (fun r => C.Good r.1.value ∧ Table.Each C.Good r.2)
      (Evaluation.inFrame frame x) (Evaluation.inFrame frame y) k := by
  obtain ⟨houtcome, hentering, hmoments, hfulfils⟩ := h
  cases hx : x (Traced.entering frame k) with
  | mk past o =>
      rw [hx] at houtcome hmoments
      dsimp only at houtcome hmoments
      rw [← houtcome] at hfulfils
      have hpast : ∀ m, C.Inv (Traced.leaving k m) →
          ∀ j ∈ Traced.entering frame k :: (past ++ [Traced.leaving k m]), C.Seen j := by
        intro m hm j hj
        simp only [List.mem_cons, List.mem_append, List.not_mem_nil, or_false] at hj
        rcases hj with rfl | hj | rfl
        · exact hentering
        · exact hmoments j hj
        · exact C.seen hm
      cases o with
      | done flow m =>
          refine .of_run (o := .done (flow, m.frame) (Traced.leaving k m).machine) ?_ ?_
            (hpast m hfulfils.2.1) hfulfils
          · rw [Traced.inFrame_eq, hx]
          · rw [Eval.inFrame_eq, ← houtcome]
      | fault e m =>
          refine .of_run (o := .fault e (Traced.leaving k m).machine) ?_ ?_
            (hpast m hfulfils.2.1) hfulfils
          · rw [Traced.inFrame_eq, hx]
          · rw [Eval.inFrame_eq, ← houtcome]
      | exhausted =>
          refine .of_run (o := .exhausted) ?_ ?_
            (List.forall_mem_cons.mpr ⟨hentering, hmoments⟩) hfulfils
          · rw [Traced.inFrame_eq, hx]
          · rw [Eval.inFrame_eq, ← houtcome]

/-- Executing a function keeps the contract of the caller if its body does, provided that there
is room for one more body. -/
theorem Holds.execute {env : Env Traced} {env' : Env Eval} (hrules : env'.rules = env.rules)
    {f : Function} {frame : Frame} {token : Token} {k : Moment} (hat : C.At token) (hk : C.Inv k)
    (hbody : k.machine.depth < env.rules.limit →
      C.HoldsInside frame (env.run f.stmts) (env'.run f.stmts) k) :
    C.Holds (fun r => C.Good r.1 ∧ Table.Each C.Good r.2)
      (env.execute f frame token) (env'.execute f frame token) k := by
  have hdepth : C.Holds (fun _ => True) (depth : Traced Nat) (depth : Eval Nat) k :=
    Holds.single ⟨trivial, hk, C.refl _⟩
  unfold Env.execute
  rw [hrules]
  refine hdepth.bind fun d m hd _ hm => ?_
  -- asking for the depth leaves the moment as it is
  obtain ⟨rfl, rfl⟩ : k.machine.depth = d ∧ k.machine = m := by
    simpa [depth] using hd
  split
  · exact Holds.single ⟨hat _ (by simp), hm, C.refl _⟩
  · rename_i hlt
    refine (hbody (Nat.lt_of_not_le hlt)).inFrame.bind ?_
    rintro ⟨flow, final⟩ m' - hr hm'
    exact ⟨rfl, by simp [Pure.pure, Traced.pure], hr, hm', C.refl _⟩

/-- A contract for bodies that is enough for the contract of their callers. -/
structure Encloses (C D : Contract) (rules : Rules) : Prop where
  entering {k : Moment} {frame : Frame} : C.Inv k → k.machine.depth < rules.limit →
    Table.Each C.Good frame → D.Inv (Traced.entering frame k)
  leaving {k : Moment} {frame : Frame} {m : Machine} : C.Inv k →
    D.Inv ⟨m, (Traced.entering frame k).waiting⟩ → D.Step (Traced.entering frame k).machine m →
      C.Inv (Traced.leaving k m) ∧ C.Step k.machine (Traced.leaving k m).machine
  seen {k : Moment} : D.Seen k → C.Seen k := by exact id
  good {v : Value} : D.Good v → C.Good v := by exact id
  raisable {cause : Cause} {location : Location} :
    D.Raisable cause location → C.Raisable cause location := by exact id
  mayGiveUp : D.MayGiveUp → C.MayGiveUp := by exact id

theorem Encloses.inside {D : Contract} {rules : Rules} (h : C.Encloses D rules) {x : Traced Flow}
    {y : Eval Flow} (hrun : ∀ k, D.Inv k → D.Holds (Flow.Good D.toTerms) x y k) {frame : Frame}
    (hframe : Table.Each C.Good frame) {k : Moment} (hk : C.Inv k)
    (hroom : k.machine.depth < rules.limit) : C.HoldsInside frame x y k := by
  have hentering := h.entering hk hroom hframe
  obtain ⟨houtcome, hmoments, hfulfils⟩ := hrun _ hentering
  refine ⟨houtcome, h.seen (D.seen hentering), fun j hj => h.seen (hmoments j hj), ?_⟩
  cases ho : y (Traced.entering frame k).machine with
  | done flow m =>
      rw [ho] at hfulfils
      obtain ⟨hflow, hm, hstep⟩ := hfulfils
      refine ⟨⟨h.good ?_, fun e he => h.good (D.frame hm e he)⟩, h.leaving hk hm hstep⟩
      cases flow with
      | normal => exact D.closed.null
      | returned v => exact hflow
  | fault f m =>
      rw [ho] at hfulfils
      obtain ⟨hraise, hm, hstep⟩ := hfulfils
      exact ⟨h.raisable hraise, h.leaving hk hm hstep⟩
  | exhausted =>
      rw [ho] at hfulfils
      exact h.mayGiveUp hfulfils

/-- Functions whose bodies keep an inner contract are executed under the outer one. -/
theorem Encloses.executes {D : Contract} {env : Env Traced} {env' : Env Eval}
    (h : C.Encloses D env.rules) (hrules : env'.rules = env.rules)
    (hupdates : ∀ name, C.Updatable name → C.Assignable name)
    (hrun : ∀ f, C.Good (.function f) → ∀ k, D.Inv k →
      D.Holds (Flow.Good D.toTerms) (env.run f.stmts) (env'.run f.stmts) k) :
    (C.simulation hupdates).Executes env env' := by
  intro f frame token hf hframe hat k hk
  exact Holds.execute hrules hat hk fun hroom => h.inside (hrun f hf) hframe hk hroom

theorem spares (hupdates : ∀ name, C.Updatable name → C.Assignable name) (h : C.MayGiveUp) :
    (C.simulation hupdates).Spares 0 := by
  intro α Q y hy k hk
  rw [hy rfl]
  exact Holds.single h

/-- A contract that bodies keep as their callers do. -/
structure Nested (C : Contract) (rules : Rules) : Prop extends C.Encloses C rules where
  bodies (f : Function) : C.Good (.function f) → ∀ s ∈ f.stmts, s.Fits C.toTerms
  constants (name : Text) (v : Value) :
    Table.get? rules.natives name = some (.constant v) → C.Good v
  updates (name : Text) : C.Updatable name → C.Assignable name
  givesUp : C.MayGiveUp

theorem Nested.respects {rules : Rules} (h : C.Nested rules) (n : Nat) :
    (C.simulation h.updates).Respects (rules.env n) (rules.env n) := by
  refine Simulation.respects_env 0 (spares h.updates h.givesUp) rfl h.constants h.bodies ?_ n
  rintro env env' rfl hrules hrun
  exact h.toEncloses.executes hrules h.updates hrun

end Contract

/-! ## Traced runs -/

/-- Both machines have entered the same number of bodies. -/
def Machine.SameDepth (m m' : Machine) : Prop :=
  m'.depth = m.depth

theorem Machine.SameDepth.refl (m : Machine) : m.SameDepth m :=
  rfl

theorem Machine.SameDepth.trans {m₁ m₂ m₃ : Machine} (h₁ : m₁.SameDepth m₂)
    (h₂ : m₂.SameDepth m₃) : m₁.SameDepth m₃ :=
  Eq.trans h₂ h₁

/-- The contract that allows everything. -/
def Contract.free : Contract where
  toTerms := Terms.free
  closed := Terms.closed_free
  Inv _ := True
  Seen _ := True
  Step _ _ := True
  MayGiveUp := True
  seen _ := trivial
  refl _ := trivial
  trans _ _ := trivial
  frame _ := by simp [Table.Each, Terms.free]
  heap _ := by simp [Table.Each, Terms.free]
  assign _ _ _ := ⟨trivial, trivial⟩
  declare _ _ := ⟨trivial, trivial⟩
  freshBody _ := ⟨trivial, trivial⟩
  print _ _ := ⟨trivial, trivial⟩

theorem Contract.nested_free (rules : Rules) : Contract.free.Nested rules where
  entering _ _ _ := trivial
  leaving _ _ _ := ⟨trivial, trivial⟩
  bodies _ _ s _ := s.fits_free
  constants _ _ _ := trivial
  updates _ _ := trivial
  givesUp := trivial

/-- Running statements with a trace does not change their outcome. -/
theorem Contract.runBody_free (rules : Rules) (n : Nat) (body : List Stmt) (k : Moment) :
    Contract.free.Holds (Flow.Good Terms.free) (runBody rules n body) (runBody rules n body) k :=
  have hnested := Contract.nested_free rules
  Simulation.runBody (Contract.spares hnested.updates trivial) hnested.respects
    (fun s _ => s.fits_free) n k trivial

end Script
