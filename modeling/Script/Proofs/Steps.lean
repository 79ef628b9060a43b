import Script.Proofs.Operation
import Script.Proofs.Simulation.Contract

/-! # Runs as sequences of single effects

The moments of a traced run follow one another by single effects on the machine, from the start of
the run to the machine that it leaves behind. What changes between two moments is therefore what
one effect can change. -/

namespace Script

open Evaluation

/-- One effect leads from a moment to the next. -/
inductive Moment.Next : Moment → Moment → Prop
  | same (k : Moment) : Next k k
  | assign (k : Moment) (name : Text) (v : Value) :
    Next k ⟨{ k.machine with frame := Table.insert name v k.machine.frame }, k.waiting⟩
  | declare (k : Moment) (name : Text) (v : Value) :
    Next k ⟨{ k.machine with heap := Table.insert name v k.machine.heap }, k.waiting⟩
  | freshBody (k : Moment) :
    Next k ⟨{ k.machine with nextBody := k.machine.nextBody + 1 }, k.waiting⟩
  | print (k : Moment) (text : Text) :
    Next k ⟨{ k.machine with printed := text :: k.machine.printed }, k.waiting⟩
  | enter (k : Moment) (frame : Frame) : Next k (Traced.entering frame k)
  | leave (m : Machine) (frame : Frame) (waiting : List Frame) :
    Next ⟨m, frame :: waiting⟩ ⟨{ m with frame := frame, depth := m.depth - 1 }, waiting⟩

/-- The moments after `k`, of which `j` is the last, follow one another by single effects. -/
def Moment.Path : Moment → List Moment → Moment → Prop
  | k, [], j => j = k
  | k, next :: rest, j => k.Next next ∧ next.Path rest j

theorem Moment.Path.append {i j k : Moment} {past rest : List Moment} (h : k.Path past j)
    (h' : j.Path rest i) : k.Path (past ++ rest) i := by
  induction past generalizing k with
  | nil =>
      cases h
      exact h'
  | cons next past ih => exact ⟨h.1, ih h.2⟩

/-- A traced run whose moments follow one another, up to the machine that it leaves behind. -/
def Traced.Follows {α : Type} (Q : α → Prop) (x : Traced α) (k : Moment) : Prop :=
  ∃ j, k.Path (x k).1 j ∧
    (x k).2.Meets (fun a m => Q a ∧ j = ⟨m, k.waiting⟩) (fun _ m => j = ⟨m, k.waiting⟩) True

namespace Traced.Follows

variable {α β : Type}

theorem mono {P Q : α → Prop} {x : Traced α} {k : Moment} (h : x.Follows P k)
    (hPQ : ∀ a, P a → Q a) : x.Follows Q k := by
  obtain ⟨j, hpath, hend⟩ := h
  exact ⟨j, hpath, hend.mono (fun a _ hm => ⟨hPQ a hm.1, hm.2⟩) (fun _ _ hm => hm) id⟩

theorem bind {P : α → Prop} {Q : β → Prop} {x : Traced α} {f : α → Traced β} {k : Moment}
    (hx : x.Follows P k) (hf : ∀ a, P a → ∀ k, (f a).Follows Q k) :
    (x >>= f : Traced β).Follows Q k := by
  obtain ⟨j, hpath, hend⟩ := hx
  cases hxk : x k with
  | mk past o =>
      rw [hxk] at hpath hend
      simp only [Follows, Bind.bind, Traced.bind, hxk]
      cases o with
      | done a m =>
          obtain ⟨ha, rfl⟩ := hend
          obtain ⟨i, hrest, hlast⟩ := hf a ha ⟨m, k.waiting⟩
          exact ⟨i, hpath.append hrest, hlast⟩
      | fault e m => exact ⟨j, hpath, hend⟩
      | exhausted => exact ⟨j, hpath, trivial⟩

/-- A single effect that ends well is one step. -/
theorem single {Q : α → Prop} {x : Eval α} {k : Moment}
    (h : (x k.machine).Meets (fun a m => Q a ∧ k.Next ⟨m, k.waiting⟩)
      (fun _ m => k.Next ⟨m, k.waiting⟩) True) : (Traced.single x).Follows Q k := by
  simp only [Follows, Traced.single]
  cases ho : x k.machine with
  | done a m =>
      rw [ho] at h
      exact ⟨⟨m, k.waiting⟩, ⟨h.2, rfl⟩, h.1, rfl⟩
  | fault f m =>
      rw [ho] at h
      exact ⟨⟨m, k.waiting⟩, ⟨h, rfl⟩, rfl⟩
  | exhausted => exact ⟨k, rfl, trivial⟩

theorem inFrame {Q : α → Prop} {x : Traced α} {frame : Frame} {k : Moment}
    (h : x.Follows Q (Traced.entering frame k)) :
    (Evaluation.inFrame frame x : Traced (α × Frame)).Follows (fun r => Q r.1) k := by
  obtain ⟨j, hpath, hend⟩ := h
  have henter := Moment.Next.enter k frame
  -- the frame that a body gives back is the one that its caller was waiting with
  have hleave : ∀ m, j = ⟨m, (Traced.entering frame k).waiting⟩ →
      k.Path (Traced.entering frame k :: ((x (Traced.entering frame k)).1 ++ [Traced.leaving k m]))
        (Traced.leaving k m) := by
    rintro m rfl
    exact ⟨henter, hpath.append ⟨.leave m k.machine.frame k.waiting, rfl⟩⟩
  cases hx : x (Traced.entering frame k) with
  | mk past o =>
      rw [hx] at hpath hend hleave
      simp only [Follows, Traced.inFrame_eq, hx]
      cases o with
      | done a m => exact ⟨_, hleave m hend.2, hend.1, rfl⟩
      | fault e m => exact ⟨_, hleave m hend, rfl⟩
      | exhausted => exact ⟨j, ⟨henter, hpath⟩, trivial⟩

end Traced.Follows

/-- Every single effect is one step. -/
def stepEffects : Effects Traced Traced where
  toTerms := Terms.free
  closed := Terms.closed_free
  Holds Q x _ := ∀ k, x.Follows Q k
  mono h hPQ k := (h k).mono hPQ
  pure ha k := ⟨k, rfl, ha, rfl⟩
  bind hx hf k := (hx k).bind hf
  raise _ k := .single (.same k)
  lookup? _ k := .single ⟨fun _ _ => trivial, .same k⟩
  assign _ _ k := .single ⟨trivial, .assign k _ _⟩
  declared? _ k := .single ⟨fun _ _ => trivial, .same k⟩
  declare _ k := .single ⟨trivial, .declare k _ _⟩
  freshBody k := .single ⟨trivial, .freshBody k⟩
  print text k := .single ⟨trivial, .print k text⟩

def stepping : Simulation Traced Traced where
  toEffects := stepEffects
  update := stepEffects.update fun _ _ => trivial

theorem Session.perform_follows (s : Session) (rounds : Nat) (op : Operation) :
    Traced.Follows (fun _ => True) (op.perform (s.rules.env rounds)) ⟨s.machine, []⟩ := by
  have hspare : stepping.Spares 0 := by
    intro α Q y _ k
    exact .single (x := exhausted) trivial
  have hrespects : stepping.Respects (s.rules.env rounds) (s.rules.env rounds) :=
    Simulation.respects_of_inFrame hspare (fun _ => trivial) (fun _ _ => trivial)
      (fun s => s.fits_free) (fun k => .single ⟨trivial, .same k⟩)
      (fun _ _ _ h k => (h _).inFrame.mono fun _ _ => trivial) s.rules rounds
  exact hrespects.perform op op.fits_free ⟨s.machine, []⟩

/-- Tracing an operation does not change its outcome. -/
theorem Session.trace_outcome (s : Session) (rounds : Nat) (op : Operation) :
    (s.trace rounds op.perform).2 = s.perform rounds op.perform := by
  have hrespects := (Contract.nested_free s.rules).respects rounds
  exact (hrespects.perform op op.fits_free ⟨s.machine, []⟩ trivial).outcome_eq

/-! ## What is printed -/

/-- No effect takes back what has been printed. -/
theorem Moment.Next.output_grows {j k : Moment} (h : k.Next j) :
    k.machine.output <+: j.machine.output := by
  cases h with
  | print k text => simp [Machine.output]
  | _ => exact List.prefix_rfl

theorem Moment.Path.output_grows {i j k : Moment} {past : List Moment} (h : k.Path past j)
    (hi : i ∈ k :: past) : i.machine.output <+: j.machine.output := by
  induction past generalizing i k with
  | nil =>
      cases h
      cases List.mem_singleton.mp hi
      exact List.prefix_rfl
  | cons next past ih =>
      rcases List.mem_cons.mp hi with rfl | hi
      · exact h.1.output_grows.trans (ih h.2 List.mem_cons_self)
      · exact ih h.2 hi

/-- Whatever has been printed at some moment of an operation is still there when it ends. -/
theorem Session.output_grows (s : Session) (rounds : Nat) (op : Operation) {k : Moment}
    (hk : k ∈ s.moments rounds op.perform) :
    (s.perform rounds op.perform).Leaves (k.machine.output <+: ·.output) := by
  obtain ⟨j, hpath, hend⟩ := s.perform_follows rounds op
  have hgrows := hpath.output_grows hk
  rw [← s.trace_outcome]
  refine Outcome.Meets.mono hend ?_ ?_ id
  · rintro a m ⟨-, rfl⟩
    exact hgrows
  · rintro f m rfl
    exact hgrows

end Script
