import Script.Proofs.Memory.Host
import Mathlib.Algebra.BigOperators.Group.Finset.Basic

/-! # Calls and their callers

The variables of other frames play no part in a call: the body has a frame of its own, and so have
the bodies inside it. Whatever variables there are in the frames of the callers and in the global
one, a call ends in the same way, and leaves all these frames as they were. -/

namespace Script

open Assertion

/-! ## All frames -/

def Machine.withFrame (m : Machine) (frame : Frame) : Machine :=
  { m with frame := frame }

/-- The frames of some levels, each with cells of its own. -/
def Assertion.frames (c : Runtime) (F : Nat → Frame) (levels : Finset Nat) : Assertion :=
  ∏ level ∈ levels, table Charter.free (F level) (c.frame level)

/-- A runtime with the heap, the output and the numbers of a machine and with the given variables at
all its levels. These have cells of their own, beside other things in the memory. -/
structure Runtime.Whole (c : Runtime) (m : Machine) (F : Nat → Frame) (P : Assertion) : Prop
    extends Scene Charter.free c m (P * Assertion.frames c F (.range c.frames.size)) where
  inUse : 0 < c.frames.size

section

variable {c c' : Runtime} {m m' : Machine} {F F' : Nat → Frame} {P Q : Assertion} {L : Nat}

theorem Assertion.frames_erase {levels : Finset Nat} (hL : L ∈ levels) :
    table Charter.free (F L) (c.frame L) * Assertion.frames c F (levels.erase L) =
      Assertion.frames c F levels :=
  Finset.mul_prod_erase levels (fun level => table Charter.free (F level) (c.frame level)) hL

/-- The runtime as it is seen from one of its levels. -/
theorem Runtime.Whole.state (h : c.Whole m F P) (hL : L < c.frames.size) :
    State Charter.free L c (m.withFrame (F L))
      (P * Assertion.frames c F ((Finset.range c.frames.size).erase L)) := by
  have hprovides := h.provides
  rw [← Assertion.frames_erase (Finset.mem_range.mpr hL), mul_left_comm] at hprovides
  exact ⟨⟨h.depth, h.printed, h.nextBody, hprovides⟩, hL⟩

/-- A part of a run at a level leaves all other frames as they were. -/
theorem State.whole
    (hs : State Charter.free L c' m'
      (P * Assertion.frames c F ((Finset.range c.frames.size).erase L)))
    (hu : Undisturbed Charter.free L c c') (hframe : F' L = m'.frame)
    (hothers : ∀ level ≠ L, F' level = F level) : c'.Whole m' F' P := by
  have hframes : Assertion.frames c F ((Finset.range c.frames.size).erase L) =
      Assertion.frames c' F' ((Finset.range c'.frames.size).erase L) := by
    rw [hu.size]
    refine Finset.prod_congr rfl fun level hlevel => ?_
    have hne := Finset.ne_of_mem_erase hlevel
    rw [hu.others level hne, hothers level hne]
  have hprovides := hs.provides
  rw [hframes, mul_left_comm, ← hframe,
    Assertion.frames_erase (Finset.mem_range.mpr hs.level)] at hprovides
  exact ⟨⟨hs.depth, hs.printed, hs.nextBody, hprovides⟩, Nat.zero_lt_of_lt hs.level⟩

/-- The frame of the machine does not matter there. -/
theorem Runtime.Whole.of_withFrame {frame : Frame} (h : c.Whole (m.withFrame frame) F P) :
    c.Whole m F P :=
  ⟨⟨h.depth, h.printed, h.nextBody, h.provides⟩, h.inUse⟩

theorem Runtime.Whole.value?_eq (h : c.Whole m F P) (hL : L < c.frames.size) (name : Text) :
    c.value? L name = Table.get? (F L) name :=
  (h.state hL).value?_eq name

end

/-! ## Calls -/

/-- What is left of a call when its arguments are there. -/
inductive Call (α τ : Type) where
  | function (f : Function) (args : List α) (token : Token)
  | method (f : Function) (receiver : α) (args : List α) (token : Token)
  /-- The constructor of a class. -/
  | construct (template : τ) (init : Function) (args : List α) (token : Token)
  /-- The method that shows an object with the given properties. -/
  | display (f : Function) (fields : Table Value)

namespace Call

/-- A call on the memory. -/
def execute (g : Engine) : Call Word Word → Exec Word
  | .function f args token => g.call f args token
  | .method f receiver args token => g.callMethod f receiver args token
  | .construct template init args token => g.instantiate template init args token
  | .display f fields => g.callDisplay f fields

def perform (env : Env) : Call Value (Table Value) → Eval Value
  | .function f args token => env.call f args token
  | .method f receiver args token =>
    env.execute f (Env.receiverFrame f receiver args) token >>= fun r => pure r.1
  | .construct fields init args token => env.instantiate fields init args token
  | .display f fields => env.execute f [(selfName, .object fields)] f.token >>= fun r => pure r.1

/-- The words of a call stand for its values by cells of their own. A class is in the heap. -/
def stands : Call Value (Table Value) → Call Word Word → Assertion
  | .function f values token, .function f' ws token' =>
    fact (f' = f ∧ token' = token) * words Charter.free values ws
  | .method f v values token, .method f' w ws token' =>
    fact (f' = f ∧ token' = token) * (word Charter.free v w * words Charter.free values ws)
  | .construct fields f values token, .construct w f' ws token' =>
    fact (f' = f ∧ token' = token) *
      (frozen Charter.free (.object fields) w * words Charter.free values ws)
  | .display f fields, .display f' fields' =>
    fact (f' = f ∧ fields' = fields ∧ (Value.object fields).Throughout Charter.free.Allows)
  | _, _ => fact False

theorem follows {g : Engine} {env : Env} (h : g.Mirrors Charter.free env) {L : Nat}
    (q : Call Value (Table Value)) (p : Call Word Word) :
    Follows Charter.free L (q.stands p) (p.execute g) (q.perform env)
      (fun w v => word Charter.free v w) := by
  cases q with
  | function f values token =>
      cases p with
      | function f' ws token' =>
          refine .of_fact ?_
          rintro ⟨rfl, rfl⟩
          exact h.call (fun _ _ => trivial) _
      | _ => exact .learn (fun _ _ _ hp => hp) False.elim
  | method f v values token =>
      cases p with
      | method f' w ws token' =>
          refine .of_fact ?_
          rintro ⟨rfl, rfl⟩
          exact h.callMethod (fun _ _ => trivial) _
      | _ => exact .learn (fun _ _ _ hp => hp) False.elim
  | construct fields f values token =>
      cases p with
      | construct w f' ws token' =>
          refine .of_fact ?_
          rintro ⟨rfl, rfl⟩
          exact h.instantiate (fun _ _ => trivial) _
      | _ => exact .learn (fun _ _ _ hp => hp) False.elim
  | display f fields =>
      cases p with
      | display f' fields' =>
          refine .learn (fun _ _ _ hp => hp) ?_
          rintro ⟨rfl, rfl, hfields⟩
          exact (Follows.step (Yields.build _ hfields) fun self =>
            (h.execute_result (fun _ _ => trivial) _).pre (table_singleton selfName)).pre
            (entails_one _)
      | _ => exact .learn (fun _ _ _ hp => hp) False.elim

end Call

/-! ## Callers -/

/-- The same end of a run, but for the variables of the caller. -/
def Outcome.withFrame {α : Type} (frame : Frame) : Outcome α → Outcome α
  | .done a m => .done a (m.withFrame frame)
  | .fault f m => .fault f (m.withFrame frame)
  | .exhausted => .exhausted

/-- An evaluation that neither reads nor writes the variables of its frame. -/
def Eval.Detached {α : Type} (x : Eval α) : Prop :=
  ∀ m frame, x (m.withFrame frame) = (x m).withFrame frame

theorem Eval.Detached.bind {α β : Type} {x : Eval α} {f : α → Eval β} (hx : x.Detached)
    (hf : ∀ a, (f a).Detached) : (x >>= f : Eval β).Detached := by
  intro m frame
  simp only [Bind.bind, Eval.bind, hx m frame]
  cases x m with
  | done a m' => exact hf a m' frame
  | fault e m' => rfl
  | exhausted => rfl

theorem Env.execute_detached (env : Env) (f : Function) (frame : Frame) (token : Token) :
    (env.execute f frame token : Eval _).Detached := by
  refine Eval.Detached.bind (fun _ _ => rfl) fun d => ?_
  split
  · exact fun _ _ => rfl
  · refine Eval.Detached.bind (fun m caller => ?_) fun r _ _ => rfl
    simp only [Evaluation.inFrame, Eval.inFrame, Machine.withFrame]
    cases env.run f.stmts { m with frame := frame, depth := m.depth + 1 } <;> rfl

theorem Call.perform_detached (env : Env) (q : Call Value (Table Value)) :
    (q.perform env).Detached := by
  cases q <;> exact (Env.execute_detached env _ _ _).bind fun _ _ _ => rfl

/-- How a call ends on the memory and on values, with all frames as they were. -/
inductive Call.Ends (c : Runtime) (F : Nat → Frame) : Ending Word × Runtime → Outcome Value → Prop
  | done {w : Word} {v : Value} {c₁ : Runtime} {m₁ : Machine} :
    c₁.Whole m₁ F (word Charter.free v w) → c₁.frames.size = c.frames.size →
    Ends c F (.done w, c₁) (.done v m₁)
  | fault {f : Fault} {c₁ : Runtime} {m₁ : Machine} : c₁.Whole m₁ F 1 →
    c₁.frames.size = c.frames.size → Ends c F (.fault f, c₁) (.fault f m₁)
  | exhausted {c₁ : Runtime} : Ends c F (.exhausted, c₁) .exhausted

theorem Runtime.Whole.ends {c : Runtime} {m : Machine} {F : Nat → Frame}
    {q : Call Value (Table Value)} {p : Call Word Word} (h : c.Whole m F (q.stands p))
    {rules : Rules} (hrules : rules.Within Charter.free) (rounds : Nat) :
    Call.Ends c F (p.execute (rules.engine rounds) c) (q.perform (rules.env rounds) m) := by
  have hrun := Call.follows (hrules.mirrors rounds) q p c _ _ (h.state h.inUse)
  rw [q.perform_detached (rules.env rounds) m] at hrun
  generalize p.execute (rules.engine rounds) c = r at hrun
  generalize q.perform (rules.env rounds) m = o at hrun
  cases o with
  | done v m₁ =>
      cases hrun with
      | done hs hu => exact .done (hs.whole hu rfl fun _ _ => rfl).of_withFrame hu.size
  | fault f m₁ =>
      cases hrun with
      | fault hs hu =>
          rw [← one_mul (Assertion.frames _ _ _)] at hs
          exact .fault (hs.whole hu rfl fun _ _ => rfl).of_withFrame hu.size
  | exhausted =>
      cases hrun with
      | exhausted _ => exact .exhausted

/-- Arguments are evaluated to words with cells of their own. -/
theorem Runtime.Whole.arguments {c c₁ : Runtime} {m : Machine} {F : Nat → Frame}
    (h : c.Whole m F 1) {rules : Rules} (hrules : rules.Within Charter.free) {rounds level : Nat}
    (hlevel : level < c.frames.size) {args : List Expr} {ws : List Word}
    (hargs : (rules.engine rounds).evalAll level args c = (.done ws, c₁)) :
    ∃ values m₁ F₁, c₁.Whole m₁ F₁ (words Charter.free values ws) := by
  have hrun := (hrules.mirrors rounds).evalAll args c _ _ (h.state hlevel)
  rw [hargs] at hrun
  generalize (Env.evalAll (rules.env rounds) args : Eval _) (m.withFrame (F level)) = o at hrun
  cases hrun with
  | @done _ values _ m₁ hs hu =>
      exact ⟨values, m₁, Function.update F level m₁.frame, hs.whole hu
        (Function.update_self level _ F) fun _ hne => Function.update_of_ne hne _ F⟩

/-! ## Two callers -/

/-- Runtimes that differ in nothing that a program can see but in their variables. -/
structure Runtime.Alike (c c' : Runtime) : Prop where
  output : c'.output = c.output
  heap (name : Text) : c'.declaration? name = c.declaration? name
  depth : c'.depth = c.depth
  nextBody : c'.nextBody = c.nextBody

theorem Runtime.Whole.alike {c c' : Runtime} {m : Machine} {F F' : Nat → Frame} {P P' : Assertion}
    (h : c.Whole m F P) (h' : c'.Whole m F' P') : c.Alike c' where
  output := h'.output_eq.trans h.output_eq.symm
  heap name := by rw [h.provides.declaration?_eq, h'.provides.declaration?_eq]
  depth := by rw [h.depth, h'.depth]
  nextBody := by rw [h.nextBody, h'.nextBody]

-- An argument that shares its cell with a global variable is the way for a call to change it.
example :
    let f : Function :=
      { name := "f"
        params := ["p"]
        body := some
          { id := .declared 0
            name := "f"
            params := ["p"]
            stmts := [.expr (.assign (.member (.ident "p" {}) "q" {}) (.boolean true {}) {}) {}] }
        token := {} }
    let c : Runtime := { frames := #[[("g", .object 0)]], memory := ⟨#[.fields []]⟩ }
    ((({} : Rules).engine 1).call f [.object 0] {} c).2.value? 0 "g" =
      some (.object [("q", .boolean true)]) :=
  rfl

end Script
