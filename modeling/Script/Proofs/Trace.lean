import Script.Session

/-! # Traced evaluations

A second kind of evaluation that also records every machine it passes through, with the variables
of the calls that are waiting at that moment. It keeps its record when it gives up, so facts about
all moments cover runs that never end. -/

namespace Script

/-- A point in a run. The waiting frames belong to the bodies that have been entered since the
start and are not finished, the innermost first. -/
structure Moment where
  machine : Machine
  waiting : List Frame := []

/-- An evaluation that gives the moments after its start beside its outcome. -/
def Traced (α : Type) := Moment → List Moment × Outcome α

namespace Traced

variable {α β : Type}

protected def pure (a : α) : Traced α :=
  fun k => ([], .done a k.machine)

protected def bind (x : Traced α) (f : α → Traced β) : Traced β :=
  fun k => match x k with
    | (past, .done a m) => ((past ++ (f a ⟨m, k.waiting⟩).1), (f a ⟨m, k.waiting⟩).2)
    | (past, .fault e m) => (past, .fault e m)
    | (past, .exhausted) => (past, .exhausted)

/-- One effect, with the moment after it. -/
def single (x : Eval α) : Traced α :=
  fun k => match x k.machine with
    | .done a m => ([⟨m, k.waiting⟩], .done a m)
    | .fault e m => ([⟨m, k.waiting⟩], .fault e m)
    | .exhausted => ([], .exhausted)

/-- The moment at which a body starts. -/
def entering (frame : Frame) (k : Moment) : Moment :=
  ⟨{ k.machine with frame := frame, depth := k.machine.depth + 1 },
    k.machine.frame :: k.waiting⟩

/-- The moment after a body that leaves a given machine. -/
def leaving (k : Moment) (m : Machine) : Moment :=
  ⟨{ m with frame := k.machine.frame, depth := m.depth - 1 }, k.waiting⟩

protected def inFrame (frame : Frame) (body : Traced α) : Traced (α × Frame) :=
  fun k => match body (entering frame k) with
    | (past, .done a m) =>
      (entering frame k :: (past ++ [leaving k m]), .done (a, m.frame) (leaving k m).machine)
    | (past, .fault e m) =>
      (entering frame k :: (past ++ [leaving k m]), .fault e (leaving k m).machine)
    | (past, .exhausted) => (entering frame k :: past, .exhausted)

instance : Monad Traced where
  pure := Traced.pure
  bind := Traced.bind

instance : Evaluation Traced where
  raise cause location := single (Evaluation.raise cause location)
  exhausted := single Evaluation.exhausted
  lookup? name := single (Evaluation.lookup? name)
  assign name value := single (Evaluation.assign name value)
  declared? name := single (Evaluation.declared? name)
  declare name value := single (Evaluation.declare name value)
  freshBody := single Evaluation.freshBody
  print text := single (Evaluation.print text)
  inFrame := Traced.inFrame
  depth := single Evaluation.depth

theorem inFrame_eq (frame : Frame) (body : Traced α) (k : Moment) :
    (Evaluation.inFrame frame body : Traced _) k =
      match body (entering frame k) with
      | (past, .done a m) =>
        (entering frame k :: (past ++ [leaving k m]), .done (a, m.frame) (leaving k m).machine)
      | (past, .fault e m) =>
        (entering frame k :: (past ++ [leaving k m]), .fault e (leaving k m).machine)
      | (past, .exhausted) => (entering frame k :: past, .exhausted) :=
  rfl

end Traced

/-- The plain evaluation of a body, in terms of the moments around it. -/
theorem Eval.inFrame_eq {α : Type} (frame : Frame) (body : Eval α) (k : Moment) :
    (Evaluation.inFrame frame body : Eval _) k.machine =
      match body (Traced.entering frame k).machine with
      | .done a m => .done (a, m.frame) (Traced.leaving k m).machine
      | .fault e m => .fault e (Traced.leaving k m).machine
      | .exhausted => .exhausted :=
  rfl

/-- An action of at most `rounds` rounds, with its trace. -/
def Session.trace {α : Type} (s : Session) (rounds : Nat) (action : Env Traced → Traced α) :
    List Moment × Outcome α :=
  action (s.rules.env rounds) ⟨s.machine, []⟩

/-- The moments of an action, from its start on. -/
def Session.moments {α : Type} (s : Session) (rounds : Nat) (action : Env Traced → Traced α) :
    List Moment :=
  ⟨s.machine, []⟩ :: (s.trace rounds action).1

end Script
