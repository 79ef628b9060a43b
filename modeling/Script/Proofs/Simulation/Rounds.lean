import Script.Proofs.Simulation.Stmt

/-! # Environments that respect simulations

Showing values and repeating loops follow from executing bodies, and executing bodies from one
body to the bodies inside it, by induction on the rounds. The second side may have more rounds. -/

namespace Script.Simulation

open Evaluation

variable {M N : Type → Type} [Evaluation M] [Evaluation N] {S : Simulation M N}

/-- Giving up is related to giving up, and to anything if the second side has extra rounds. -/
def Spares (S : Simulation M N) (extra : Nat) : Prop :=
  ∀ {α : Type} (Q : α → Prop) (y : N α), (extra = 0 → y = exhausted) → S.Holds Q exhausted y

/-- Some good object shows itself by a method. -/
def Displays (S : Simulation M N) : Prop :=
  ∃ fields f, S.Good (.object fields) ∧ Table.get? fields displayKey = some (.function f)

section Display

variable {env : Env M} {env' : Env N} {again : Value → M Text} {again' : Value → N Text}

mutual

theorem displayWith (hexec : S.Executes env env')
    (hagain : S.Displays → ∀ v, S.Good v → S.Holds (fun _ => True) (again v) (again' v))
    (standing : Standing) (v : Value) (hv : S.Good v) :
    S.Holds (fun _ => True) (env.displayWith again standing v)
      (env'.displayWith again' standing v) := by
  match v with
  | .null | .number _ | .string _ | .boolean _ | .nameRef _ | .function _ => exact S.pure trivial
  | .array items =>
      simp only [Env.displayWith]
      have hitems := (S.closed.array items).mp hv
      exact S.bind (displayItems hexec hagain items hitems) fun _ _ => S.pure trivial
  | .object fields =>
      have hfields := S.closed.fields hv
      have hplain : S.Holds (fun _ => True)
          (do return objectText (← env.displayFields again fields))
          (do return objectText (← env'.displayFields again' fields)) :=
        S.bind (displayFields hexec hagain fields hfields) fun _ _ => S.pure trivial
      simp only [Env.displayWith]
      cases hget : Table.get? fields displayKey with
      | none => exact hplain
      | some w =>
          cases w with
          | function f =>
              have hf : S.Good (.function f) := hfields.get? hget
              have hself : Table.Each S.Good [(selfName, Value.object fields)] := by
                simpa [Table.Each] using hv
              refine S.bind (hexec hf hself (S.closed.function hf)) ?_
              rintro ⟨result, final⟩ ⟨hresult, -⟩
              cases result with
              | string s => exact S.pure trivial
              | _ => exact hagain ⟨fields, f, hv, hget⟩ _ hresult
          | _ => exact hplain

theorem displayItems (hexec : S.Executes env env')
    (hagain : S.Displays → ∀ v, S.Good v → S.Holds (fun _ => True) (again v) (again' v))
    (items : List Value) (hitems : ∀ v ∈ items, S.Good v) :
    S.Holds (fun _ => True) (env.displayItems again items) (env'.displayItems again' items) := by
  match items with
  | [] => exact S.pure trivial
  | item :: rest =>
      simp only [Env.displayItems]
      refine S.bind (displayWith hexec hagain .nested item (hitems item (by simp))) fun _ _ => ?_
      have hrest : ∀ v ∈ rest, S.Good v := fun v hv => hitems v (List.mem_cons_of_mem _ hv)
      exact S.bind (displayItems hexec hagain rest hrest) fun _ _ => S.pure trivial

theorem displayFields (hexec : S.Executes env env')
    (hagain : S.Displays → ∀ v, S.Good v → S.Holds (fun _ => True) (again v) (again' v))
    (fields : List (Text × Value)) (hfields : Table.Each S.Good fields) :
    S.Holds (fun _ => True) (env.displayFields again fields)
      (env'.displayFields again' fields) := by
  match fields with
  | [] => exact S.pure trivial
  | (key, value) :: rest =>
      simp only [Env.displayFields]
      refine S.bind (displayWith hexec hagain .nested value (hfields (key, value) (by simp)))
        fun _ _ => ?_
      have hrest : Table.Each S.Good rest := fun e he => hfields e (List.mem_cons_of_mem _ he)
      exact S.bind (displayFields hexec hagain rest hrest) fun _ _ => S.pure trivial

end

theorem displayWithin {extra : Nat} (hspare : S.Spares extra) (hexec : S.Executes env env')
    (n : Nat) (v : Value) (hv : S.Good v) :
    S.Holds (fun _ => True) (env.displayWithin n v) (env'.displayWithin (n + extra) v) := by
  induction n generalizing v with
  | zero => exact hspare _ _ fun h0 => by rw [h0]; rfl
  | succ n ih =>
      rw [Nat.succ_add]
      exact displayWith hexec (fun _ => ih) .alone v hv

end Display

theorem repeatWhile {extra : Nat} (hspare : S.Spares extra) {c : M Bool} {c' : N Bool}
    {b : M Flow} {b' : N Flow} (hc : S.Holds (fun _ => True) c c')
    (hb : S.Holds (Flow.Good S.toTerms) b b') (n : Nat) :
    S.Holds (Flow.Good S.toTerms) (Env.repeatWhile c b n)
      (Env.repeatWhile c' b' (n + extra)) := by
  induction n with
  | zero => exact hspare _ _ fun h0 => by rw [h0]; rfl
  | succ n ih =>
      rw [Nat.succ_add]
      refine S.bind hc fun holds _ => ?_
      split
      · refine S.bind hb fun flow hflow => ?_
        cases flow with
        | normal => exact ih
        | returned v => exact S.pure hflow
      · exact S.pure trivial

theorem Executes.respects {extra : Nat} {env : Env M} {env' : Env N}
    (hexec : S.Executes env env') (hspare : S.Spares extra)
    (hrounds : env'.rounds = env.rounds + extra)
    (hnatives : env'.rules.natives = env.rules.natives)
    (hconstants : ∀ name v, Table.get? env.rules.natives name = some (.constant v) → S.Good v) :
    S.Respects env env' where
  natives := hnatives
  constants := hconstants
  execute := hexec
  display hv := by
    simp only [Env.display, hrounds]
    exact displayWithin hspare hexec env.rounds _ hv
  loop _ hc hb := by
    rw [hrounds]
    exact repeatWhile hspare hc hb env.rounds

/-- Environments respect a simulation if executing a body respects it whenever running the
statements of the body does. -/
theorem respects_env (extra : Nat) {rules rules' : Rules} (hspare : S.Spares extra)
    (hnatives : rules'.natives = rules.natives)
    (hconstants : ∀ name v, Table.get? rules.natives name = some (.constant v) → S.Good v)
    (hbodies : ∀ f, S.Good (.function f) → ∀ s ∈ f.stmts, s.Fits S.toTerms)
    (hstep : ∀ (env : Env M) (env' : Env N), env.rules = rules → env'.rules = rules' →
      (∀ f, S.Good (.function f) →
        S.Holds (Flow.Good S.toTerms) (env.run f.stmts) (env'.run f.stmts)) →
      S.Executes env env') (n : Nat) :
    S.Respects (rules.env n) (rules'.env (n + extra)) := by
  have hrun : ∀ f, S.Good (.function f) →
      S.Holds (Flow.Good S.toTerms) (runBody rules n f.stmts)
        (runBody rules' (n + extra) f.stmts) := by
    induction n with
    | zero => exact fun f _ => hspare _ _ fun h0 => by rw [h0]; rfl
    | succ n ih =>
        intro f hf
        rw [Nat.succ_add]
        have hexec : S.Executes (rules.env n) (rules'.env (n + extra)) := hstep _ _ rfl rfl ih
        exact (hexec.respects hspare rfl hnatives hconstants).evalBlock f.stmts (hbodies f hf)
  exact Executes.respects (hstep _ _ rfl rfl hrun) hspare rfl hnatives hconstants

/-- Where nothing is asked for, one law for bodies in frames of their own is enough. -/
theorem respects_of_inFrame (hspare : S.Spares 0) (hgood : ∀ v, S.Good v)
    (hraise : ∀ cause location, S.Raisable cause location)
    (hfits : ∀ s : Stmt, s.Fits S.toTerms)
    (hdepth : S.Holds (fun _ => True) (depth : M Nat) depth)
    (hframe : ∀ (frame : Frame) {x : M Flow} {y : N Flow},
      S.Holds (Flow.Good S.toTerms) x y →
        S.Holds (fun _ => True) (inFrame frame x) (inFrame frame y))
    (rules : Rules) (n : Nat) : S.Respects (rules.env n) (rules.env n) := by
  refine respects_env 0 hspare rfl (fun _ v _ => hgood v) (fun _ _ s _ => hfits s) ?_ n
  rintro env env' hrules hrules' hrun f frame token hf - -
  refine S.bind hdepth fun d _ => ?_
  rw [hrules, hrules']
  split
  · exact S.raise (hraise _ _)
  · exact S.bind (hframe frame (hrun f hf)) fun _ _ =>
      S.pure ⟨hgood _, fun _ _ => hgood _⟩

/-- Bodies are run in related ways by environments that respect a simulation. -/
theorem runBody {rules rules' : Rules} (hspare : S.Spares 0)
    (h : ∀ n, S.Respects (rules.env n) (rules'.env n)) {body : List Stmt}
    (hbody : ∀ s ∈ body, s.Fits S.toTerms) (n : Nat) :
    S.Holds (Flow.Good S.toTerms) (runBody rules n body) (runBody rules' n body) := by
  cases n with
  | zero => exact hspare _ _ fun _ => rfl
  | succ n => exact (h n).evalBlock body hbody

end Script.Simulation
