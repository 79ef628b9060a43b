import Script.Engine.Host
import Script.Proofs.Memory.Eval
import Script.Proofs.Operation

/-!
# Hosts and sessions

A host that hands in plain values always has a runtime that stands for a session: no two variables
and no variable and declaration share a cell. Whatever the host asks for ends as it does in the
session (`Host.Stands.answers_alike`), so what holds of sessions holds of hosts.
-/

namespace Script

open Assertion

/-! ## Operations -/

/-- An operation on the memory. What is handed in is put into the memory first, and the result is
taken out of it. -/
def Operation.carryOut (op : Operation) (g : Engine) : Exec op.Result :=
  match op with
  | .evaluate program => g.evaluate program
  | .run program args => do Exec.view (← g.runMain program args)
  | .callMain arg => do Exec.view (← g.callMain (← Exec.build arg))
  | .expression e => do Exec.view (← g.evalExpr 0 e)
  | .invoke f args token => do Exec.view (← g.invoke f (← Exec.buildItems args) token)
  | .display v => do g.display (← Exec.build v)

/-- A charter allows what an operation hands in. -/
def Operation.Within (K : Charter) : Operation → Prop
  | .evaluate program | .run program _ => ∀ s ∈ program.body, K.Body s
  | .callMain v | .display v => v.Throughout K.Allows
  | .expression _ => True
  | .invoke f args _ => (∀ f', f = some f' → ∀ s ∈ f'.stmts, K.Body s) ∧
    ∀ v ∈ args, v.Throughout K.Allows

section

variable {K : Charter} {L : Nat} {P : Assertion} {v : Value} {w : Word}

/-- A word is taken out as the value that it stands for. -/
theorem Follows.viewed {x : Exec Word} {y : Eval Value}
    (h : Follows K L P x y (fun w v => word K v w)) :
    Follows K L P (x >>= Exec.view) y same := by
  rw [← bind_pure y]
  refine h.bind fun w v => .of_yields ?_
  exact Yields.view.conseq (Entails.refl _) fun _ => mul_entails_left

theorem Follows.building {α β : Type} {f : Word → Exec α} {y : Eval β} {Q : α → β → Assertion}
    (hv : v.Throughout K.Allows) (hf : ∀ w, Follows K L (word K v w) (f w) y Q) :
    Follows K L 1 (Exec.build v >>= f) y Q :=
  .step (Yields.build v hv) hf

namespace Engine.Mirrors

variable {g : Engine} {env : Env} (h : g.Mirrors K env)
include h

theorem evaluate {program : Program} (hprogram : ∀ s ∈ program.body, K.Body s) :
    Follows K 0 1 (g.evaluate program) (env.evaluate program) (fun _ _ => 1) :=
  (h.evalBlock program.body hprogram).bind fun _ _ => .pure (entails_one _)

theorem callMain :
    Follows K L (word K v w) (g.callMain w) (env.callMain v) (fun w v => word K v w) := by
  refine .declared_cases Env.mainName (.raise _ _) fun u d hshell hallows => ?_
  refine .pre ?_ mul_entails_right
  cases Word.like_of_shell hshell with
  | function f =>
      dsimp only
      split
      · refine .step Yields.copy fun w' => .pre ?_ mul_entails_left
        exact (h.call (Charter.bodies hallows) f.token).pre words_singleton
      · exact .raise _ _
  | _ => exact .raise _ _

theorem runMain {program : Program} (hprogram : ∀ s ∈ program.body, K.Body s)
    (args : List Text) :
    Follows K 0 1 (g.runMain program args) (env.runMain program args)
      (fun w v => word K v w) := by
  refine (h.evaluate hprogram).bind fun _ _ => .building ?_ fun _ => h.callMain
  refine Value.throughout_array.mpr ⟨trivial, ?_⟩
  simp only [List.forall_mem_map]
  exact fun text _ => (Value.throughout_of_parts rfl).mpr trivial

/-- Every operation on the memory follows the operation on values. -/
theorem carryOut {op : Operation} (hop : op.Within K) :
    Follows K 0 1 (op.carryOut g) (op.perform env) same := by
  cases op with
  | evaluate program =>
      exact (h.evaluate hop).conseq (Entails.refl _) fun _ _ => one_entails_fact rfl
  | run program args => exact (h.runMain hop args).viewed
  | callMain v =>
      exact .building hop fun _ => h.callMain.viewed
  | expression e => exact (h.evalExpr e).viewed
  | invoke f args token =>
      exact .step (Yields.buildItems args hop.2) fun ws => (h.invoke hop.1 token).viewed
  | display v => exact .building hop fun w => h.display v w

end Engine.Mirrors

end

/-! ## Hosts -/

/-- A host does what a session with plain values does. -/
structure Host.Stands (h : Host) (s : Session) : Prop where
  rules : h.rules = s.rules
  within : s.rules.Within Charter.free
  state : State Charter.free 0 h.runtime s.machine 1
  single : h.runtime.frames.size = 1

/-- How a run ends, without what it leaves behind. -/
def Outcome.ending {α : Type} : Outcome α → Ending α
  | .done a _ => .done a
  | .fault f _ => .fault f
  | .exhausted => .exhausted

/-- The host after an operation. -/
def Host.after {α : Type} (h : Host) (result : Ending α × Runtime) : Host :=
  { h with runtime := result.2 }

theorem Rules.within_of_standard {K : Charter} {rules : Rules}
    (h : rules.natives = Native.standard) : rules.Within K := by
  intro name v hget
  rw [h] at hget
  exact absurd hget (Native.standard_constants name v)

theorem State.fresh (K : Charter) (record? : Option (List Change)) :
    State K 0 { record? := record? } {} 1 := by
  refine ⟨⟨rfl, rfl, rfl, ∅, ∅, ?_, ?_, Finset.disjoint_empty_left ∅, .nil, ?_⟩, Nat.one_pos⟩
  · exact Finset.empty_subset _
  · exact Finset.empty_subset _
  · rw [mul_one]
    exact ⟨.nil, rfl⟩

namespace Host.Stands

variable {h : Host} {s : Session}

theorem fresh (record? : Option (List Change)) :
    Host.Stands { runtime := { record? := record? } } {} :=
  ⟨rfl, Rules.within_of_standard rfl, .fresh _ record?, rfl⟩

theorem setLimit (hs : h.Stands s) (limit : Nat) :
    (h.setLimit limit).Stands (s.setLimit limit) where
  rules := congrArg (·.withLimit limit) hs.rules
  within := hs.within
  state := hs.state
  single := hs.single

theorem clearOutput (hs : h.Stands s) : h.clearOutput.Stands s.clearOutput where
  rules := hs.rules
  within := hs.within
  state := ⟨{ hs.state.toScene with printed := rfl }, hs.state.level⟩
  single := hs.single

theorem addNative (hs : h.Stands s) (name : Text) {native : Native}
    (hnative : ∀ v, native = .constant v → v.Throughout Charter.free.Allows) :
    (h.addNative name native).Stands (s.addNative name native) where
  rules := by simp only [Host.addNative, Session.addNative, hs.rules]
  within other v hget := by
    simp only [Session.addNative, Table.get?_insert] at hget
    split at hget
    · exact hnative v (Option.some.inj hget)
    · exact hs.within other v hget
  state := hs.state
  single := hs.single

/-- What is handed in gets new cells. -/
theorem build (hs : h.Stands s) {v : Value} (hv : v.Throughout Charter.free.Allows)
    (change : Word → Change) :
    ∃ w c, h.place v change = { h with runtime := c.apply (change w) } ∧
      State Charter.free 0 c s.machine (word Charter.free v w * 1) ∧ c.frames.size = 1 := by
  obtain ⟨w, c, hrun, hc, hu⟩ := (Yields.build v hv).run (by rw [one_mul]; exact hs.state)
  exact ⟨w, c, by simp only [Host.place, hrun], hc, hu.size.trans hs.single⟩

theorem setGlobal (hs : h.Stands s) (name : Text) {v : Value}
    (hv : v.Throughout Charter.free.Allows) :
    (h.setGlobal name v).Stands (s.setGlobal name v) := by
  obtain ⟨w, c, hplace, hc, hsize⟩ := hs.build hv (.write (.var 0 name))
  have hassign := Follows.assign name c s.machine 1 hc
  simp only [Exec.assign, Exec.change, Evaluation.assign] at hassign
  rw [Host.setGlobal, hplace]
  cases hassign with
  | done hstate hu => exact ⟨hs.rules, hs.within, hstate.imp mul_entails_left, hu.size.trans hsize⟩

theorem declare (hs : h.Stands s) (name : Text) {v : Value}
    (hv : v.Throughout Charter.free.Allows) : (h.declare name v).Stands (s.declare name v) := by
  obtain ⟨w, c, hplace, hc, hsize⟩ := hs.build hv (.define name)
  have hprovides := hc.provides
  rw [mul_left_comm] at hprovides
  rw [Host.declare, hplace]
  exact ⟨hs.rules, hs.within, ⟨⟨hc.depth, hc.printed, hc.nextBody, hprovides.declare trivial⟩,
    hc.level⟩, hsize⟩

/-- Whatever a host asks for ends as in the session, with the same result or fault. -/
theorem perform (hs : h.Stands s) (rounds : Nat) {op : Operation}
    (hop : op.Within Charter.free) :
    Agrees Charter.free 0 same 1 h.runtime (h.perform rounds op.carryOut)
      (s.perform rounds op.perform) := by
  have hmirrors := hs.within.mirrors rounds
  rw [Host.perform, hs.rules]
  exact hmirrors.carryOut hop h.runtime s.machine 1 (by rw [one_mul]; exact hs.state)

/-- A host and the session that it stands for cannot be told apart: they answer with the same
results and faults, and have printed the same text. -/
theorem answers_alike (hs : h.Stands s) (rounds : Nat) {op : Operation}
    (hop : op.Within Charter.free) :
    (h.perform rounds op.carryOut).1 = (s.perform rounds op.perform).ending ∧
      (s.perform rounds op.perform).Leaves
        ((h.perform rounds op.carryOut).2.output = ·.output) := by
  have hagrees := hs.perform rounds hop
  generalize h.perform rounds op.carryOut = r at hagrees
  generalize s.perform rounds op.perform = o at hagrees
  cases hagrees with
  | done hstate _ =>
      have hsame := hstate.learn fun _ _ _ hfact => hfact
      exact ⟨congrArg Ending.done hsame, hstate.output_eq⟩
  | fault hstate _ => exact ⟨rfl, hstate.output_eq⟩
  | exhausted _ => exact ⟨rfl, trivial⟩

/-- And the host stands for the session afterwards. -/
theorem after (hs : h.Stands s) (rounds : Nat) {op : Operation} (hop : op.Within Charter.free)
    (hends : (h.perform rounds op.carryOut).1 ≠ .exhausted) :
    (h.after (h.perform rounds op.carryOut)).Stands (s.next (s.perform rounds op.perform)) := by
  have hagrees := hs.perform rounds hop
  unfold Host.after
  generalize h.perform rounds op.carryOut = r at hagrees hends
  generalize s.perform rounds op.perform = o at hagrees
  cases hagrees with
  | done hstate hu =>
      exact ⟨hs.rules, hs.within, hstate.imp (entails_one _), hu.size.trans hs.single⟩
  | fault hstate hu => exact ⟨hs.rules, hs.within, hstate, hu.size.trans hs.single⟩
  | exhausted _ => exact absurd rfl hends

end Host.Stands

/-- The hosts that come from a fresh one. Objects that are handed in have their properties in
order. -/
inductive Host.Reachable : Host → Prop
  | fresh (record? : Option (List Change)) : Reachable { runtime := { record? := record? } }
  | setLimit {h : Host} (limit : Nat) : Reachable h → Reachable (h.setLimit limit)
  | clearOutput {h : Host} : Reachable h → Reachable h.clearOutput
  | addNative {h : Host} (name : Text) {native : Native} : Reachable h →
    (∀ v, native = .constant v → v.Throughout Charter.free.Allows) →
    Reachable (h.addNative name native)
  | setGlobal {h : Host} (name : Text) {v : Value} : Reachable h →
    v.Throughout Charter.free.Allows → Reachable (h.setGlobal name v)
  | declare {h : Host} (name : Text) {v : Value} : Reachable h →
    v.Throughout Charter.free.Allows → Reachable (h.declare name v)
  | after {h : Host} (rounds : Nat) {op : Operation} : Reachable h → op.Within Charter.free →
    (h.perform rounds op.carryOut).1 ≠ .exhausted →
    Reachable (h.after (h.perform rounds op.carryOut))

theorem Host.Reachable.stands {h : Host} (hreach : h.Reachable) : ∃ s, h.Stands s := by
  induction hreach with
  | fresh record? => exact ⟨{}, .fresh record?⟩
  | setLimit limit _ ih => exact ih.imp' _ fun _ hs => hs.setLimit limit
  | clearOutput _ ih => exact ih.imp' _ fun _ hs => hs.clearOutput
  | addNative name _ hnative ih => exact ih.imp' _ fun _ hs => hs.addNative name hnative
  | setGlobal name _ hv ih => exact ih.imp' _ fun _ hs => hs.setGlobal name hv
  | declare name _ hv ih => exact ih.imp' _ fun _ hs => hs.declare name hv
  | after rounds _ hop hends ih => exact ih.imp' _ fun _ hs => hs.after rounds hop hends

/-- The changes of an operation are those of a run, also if it was given up. -/
theorem Host.Reachable.reaches {h : Host} (hreach : h.Reachable) (rounds : Nat) {op : Operation}
    (hop : op.Within Charter.free) :
    Charter.free.Reaches h.runtime (h.perform rounds op.carryOut).2 := by
  obtain ⟨s, hs⟩ := hreach.stands
  exact (hs.perform rounds hop).reaches

end Script
