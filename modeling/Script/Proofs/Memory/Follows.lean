import Script.Proofs.Memory.Assertion

/-!
# Runs on the memory and runs on values

A run on the memory follows a run on plain values: both end in the same way, with results and
states that stand for each other. All cells that the run does not own stay as they are, which is
said once, by leaving room for any other assertion beside the ones of the run.
-/

namespace Script

open Assertion

/-! ## States -/

/-- A variable of a level has the same value in two runtimes, or none in both. -/
def Runtime.SameAt (level : Nat) (name : Text) (c c' : Runtime) : Prop :=
  c'.value? level name = c.value? level name

/-- The heap, the output and the numbers of a machine are those of a runtime, and the memory of the
runtime holds what an assertion says. -/
structure Scene (K : Charter) (c : Runtime) (m : Machine) (R : Assertion) : Prop where
  depth : c.depth = m.depth
  printed : c.printed = m.printed
  nextBody : c.nextBody = m.nextBody
  provides : Provides K c.memory m.heap c.heap R

/-- A machine as it is seen from a level of a runtime, beside other things in the memory. -/
structure State (K : Charter) (L : Nat) (c : Runtime) (m : Machine) (R : Assertion) : Prop
    extends Scene K c m (table K m.frame (c.frame L) * R) where
  level : L < c.frames.size

/-- The variables of a level and the entries of the heap have cells of their own: they stand for
values, and a change of one cannot be seen in another. -/
def Runtime.Orderly (K : Charter) (c : Runtime) (level : Nat) : Prop :=
  ∃ m, State K level c m 1

/-! ## Changes -/

/-- The name whose entry of the heap a change sets. -/
def Change.target? : Change → Option Text
  | .declare d _ => some d.declaredName
  | .define name _ => some name
  | _ => none

/-- The changes that neither set an entry of the heap nor begin a body. -/
def Change.Quiet : Change → Prop
  | .declare _ _ | .define _ _ | .enter _ => False
  | _ => True

/-- A run does not define anything, and declares only what it executes. -/
def Charter.Permits (K : Charter) : Change → Prop
  | .declare d _ => K.Body d
  | .define _ _ => False
  | _ => True

/-- What holds of every change of a run. All entries of the heap are read as allowed ones. An entry
changes only by a declaration of its name that is the statement at this moment, and is then what
this declaration makes. A body begins with variables that have cells of their own. -/
structure Charter.Advance (K : Charter) (c : Runtime) (change : Change) : Prop where
  permitted : K.Permits change
  entries : ∀ name w, Table.get? (c.apply change).heap name = some w →
    ∃ v, (c.apply change).declaration? name = some v ∧ K.Entry name v
  kept : ∀ name, change.target? ≠ some name →
    (c.apply change).declaration? name = c.declaration? name
  made : ∀ d w, change = .declare d w → c.statement? = some d ∧
    ∃ v, (c.apply change).declaration? d.declaredName = some v ∧ d.Declares d.declaredName v
  begun : ∀ frame, change = .enter frame → (c.apply change).Orderly K c.frames.size

/-- Changes one after the other. -/
def Charter.Course (K : Charter) : Runtime → List Change → Prop
  | _, [] => True
  | c, change :: rest => K.Advance c change ∧ K.Course (c.apply change) rest

/-- A runtime comes from another one by changes of a run. -/
def Charter.Reaches (K : Charter) (c c' : Runtime) : Prop :=
  ∃ changes, K.Course c changes ∧ changes.foldl Runtime.apply c = c'

section

variable {K : Charter} {c c' c'' : Runtime}

theorem Charter.Course.append {changes changes' : List Change} (h : K.Course c changes)
    (h' : K.Course (changes.foldl Runtime.apply c) changes') :
    K.Course c (changes ++ changes') := by
  induction changes generalizing c with
  | nil => exact h'
  | cons change rest ih => exact ⟨h.1, ih h.2 h'⟩

theorem Charter.Course.advance {changes past : List Change} {change : Change}
    (h : K.Course c changes) (hpast : past ++ [change] <+: changes) :
    K.Advance (past.foldl Runtime.apply c) change := by
  obtain ⟨rest, rfl⟩ := hpast
  induction past generalizing c with
  | nil => exact h.1
  | cons first past ih => exact ih h.2

theorem Charter.Reaches.refl (K : Charter) (c : Runtime) : K.Reaches c c :=
  ⟨[], trivial, rfl⟩

theorem Charter.Reaches.single {change : Change} (h : K.Advance c change) :
    K.Reaches c (c.apply change) :=
  ⟨[change], ⟨h, trivial⟩, rfl⟩

theorem Charter.Reaches.trans (h : K.Reaches c c') (h' : K.Reaches c' c'') : K.Reaches c c'' := by
  obtain ⟨changes, hcourse, rfl⟩ := h
  obtain ⟨changes', hcourse', rfl⟩ := h'
  exact ⟨changes ++ changes', hcourse.append hcourse', List.foldl_append⟩

/-- A part of a run at a level: it changes no other frame. -/
structure Undisturbed (K : Charter) (L : Nat) (c c' : Runtime) : Prop where
  reaches : K.Reaches c c'
  size : c'.frames.size = c.frames.size
  others : ∀ level ≠ L, c'.frame level = c.frame level

theorem Undisturbed.refl (K : Charter) (L : Nat) (c : Runtime) : Undisturbed K L c c :=
  ⟨.refl K c, rfl, fun _ _ => rfl⟩

theorem Undisturbed.trans {L : Nat} (h : Undisturbed K L c c') (h' : Undisturbed K L c' c'') :
    Undisturbed K L c c'' where
  reaches := h.reaches.trans h'.reaches
  size := h'.size.trans h.size
  others level hne := (h'.others level hne).trans (h.others level hne)

end

section

variable {K : Charter} {L : Nat} {c : Runtime} {m : Machine} {P Q R R' : Assertion}

theorem Provides.declaration?_eq {heap : Heap} (h : Provides K c.memory heap c.heap R)
    (name : Text) : c.declaration? name = Table.get? heap name := by
  obtain ⟨Z, S, hZ, -, -, hheap, -⟩ := h
  unfold Runtime.declaration?
  rcases hheap.entry name with ⟨hget, hget'⟩ | ⟨v, w, hget, hget', hv, -⟩
  · rw [hget, hget']
    rfl
  · rw [hget, hget']
    exact hv.read_eq hZ

theorem Charter.Advance.of_provides {change : Change} {heap heap' : Heap}
    (h : Provides K c.memory heap c.heap R)
    (h' : Provides K (c.apply change).memory heap' (c.apply change).heap R')
    (hpermitted : K.Permits change)
    (hkept : ∀ name, change.target? ≠ some name → Table.get? heap' name = Table.get? heap name)
    (hmade : ∀ d w, change = .declare d w → c.statement? = some d ∧
      ∃ v, Table.get? heap' d.declaredName = some v ∧ d.Declares d.declaredName v)
    (hbegun : ∀ frame, change = .enter frame → (c.apply change).Orderly K c.frames.size) :
    K.Advance c change where
  permitted := hpermitted
  entries name w hget := by
    rcases h'.entry name with ⟨-, hnone⟩ | ⟨v, w', hheap, -, hentry, -⟩
    · rw [hget] at hnone
      cases hnone
    · exact ⟨v, (h'.declaration?_eq name).trans hheap, hentry⟩
  kept name hname := by rw [h.declaration?_eq, h'.declaration?_eq, hkept name hname]
  made d w hd := by simpa only [h'.declaration?_eq] using hmade d w hd
  begun := hbegun

/-- Changes that declare nothing and begin no body. -/
theorem Charter.Advance.of_quiet {change : Change} {heap : Heap}
    (h : Provides K c.memory heap c.heap R)
    (h' : Provides K (c.apply change).memory heap (c.apply change).heap R')
    (hchange : change.Quiet) : K.Advance c change := by
  cases change with
  | declare d w => cases hchange
  | define name w => cases hchange
  | enter frame => cases hchange
  | _ =>
      exact .of_provides h h' trivial (fun _ _ => rfl) (fun _ _ heq => by cases heq)
        (fun _ heq => by cases heq)

theorem Scene.imp (h : Scene K c m R) (hR : R.Entails R') : Scene K c m R' :=
  { h with provides := h.provides.imp hR }

theorem Scene.output_eq (h : Scene K c m R) : c.output = m.output := by
  rw [Runtime.output, Machine.output, h.printed]

namespace State

theorem imp (h : State K L c m R) (hR : R.Entails R') : State K L c m R' :=
  ⟨h.toScene.imp ((Entails.refl _).mul hR), h.level⟩

/-- What an assertion says without the memory is so. -/
theorem learn (h : State K L c m (P * R)) {p : Prop} (hp : ∀ σ Z S, P.Holds σ Z S → p) : p := by
  obtain ⟨Z, S, -, -, -, -, S₁, S₂, -, -, -, T₁, T₂, -, -, hP, -⟩ := h.provides
  exact hp _ _ _ hP

theorem declaration?_eq (h : State K L c m R) (name : Text) :
    c.declaration? name = Table.get? m.heap name :=
  h.provides.declaration?_eq name

end State

/-- A word can be read in a runtime as a certain value, whoever owns its cells. -/
def Runtime.Shows (K : Charter) (c : Runtime) (v : Value) (w : Word) : Prop :=
  ∃ T, c.memory.Has T ∧ Depicts K.Body c.memory v w T

theorem Runtime.Shows.read_eq {v : Value} {w : Word} (h : c.Shows K v w) :
    c.memory.read w = some v := by
  obtain ⟨T, hT, hv⟩ := h
  exact hv.read_eq hT

theorem Scene.shows_word {v : Value} {w : Word} (h : Scene K c m (word K v w * R)) :
    c.Shows K v w := by
  obtain ⟨Z, S, -, hS, -, -, S₁, S₂, -, hsub, hv, -⟩ := h.provides
  exact ⟨S₁, (Finset.union_subset_iff.mp hsub).1.trans hS, hv⟩

theorem Scene.shows_frozen {v : Value} {w : Word} (h : Scene K c m (frozen K v w * R)) :
    c.Shows K v w := by
  obtain ⟨Z, S, hZ, -, -, -, S₁, S₂, -, -, hv, -⟩ := h.provides
  exact ⟨Z, hZ, hv⟩

namespace State

theorem shows_word {v : Value} {w : Word} (h : State K L c m (word K v w * R)) :
    c.Shows K v w := by
  have hscene := h.toScene
  rw [mul_left_comm] at hscene
  exact hscene.shows_word

/-- The variables of the level. -/
theorem lookup (h : State K L c m R) (name : Text) :
    (Table.get? m.frame name = none ∧ Table.get? (c.frame L) name = none) ∨
      ∃ v w, Table.get? m.frame name = some v ∧ Table.get? (c.frame L) name = some w ∧
        c.Shows K v w := by
  obtain ⟨Z, S, -, hS, -, -, S₁, S₂, -, hsub, ⟨-, hframe⟩, -⟩ := h.provides
  refine (hframe.entry name).imp id ?_
  rintro ⟨v, w, hget, hget', hv⟩
  exact ⟨v, w, hget, hget', S₁, (Finset.union_subset_iff.mp hsub).1.trans hS, hv⟩

theorem value?_eq (h : State K L c m R) (name : Text) :
    c.value? L name = Table.get? m.frame name := by
  unfold Runtime.value?
  rcases h.lookup name with ⟨hget, hget'⟩ | ⟨v, w, hget, hget', hv⟩
  · rw [hget, hget']
    rfl
  · rw [hget, hget']
    exact hv.read_eq

end State

end

/-! ## Runs -/

instance : LawfulMonad Exec := by
  refine LawfulMonad.mk' Exec ?_ ?_ ?_
  · intro α x
    funext c
    change Exec.bind x Exec.pure c = x c
    unfold Exec.bind
    rcases x c with ⟨a | f | _, c'⟩ <;> rfl
  · intro α β a f
    rfl
  · intro α β γ x f g
    funext c
    change Exec.bind (Exec.bind x f) g c = Exec.bind x (fun a => Exec.bind (f a) g) c
    unfold Exec.bind
    rcases x c with ⟨a | f | _, c'⟩ <;> rfl

theorem Exec.bind_of_done {α β : Type} {x : Exec α} {f : α → Exec β} {c c' : Runtime} {a : α}
    (h : x c = (.done a, c')) : (x >>= f) c = f a c' := by
  simp only [Bind.bind, Exec.bind, h]

section

variable {α α' β β' : Type}

/-- The ends of two runs that go together. A run that was given up has only made its changes. -/
inductive Agrees (K : Charter) (L : Nat) (Q : α → β → Assertion) (R : Assertion) (c : Runtime) :
    Ending α × Runtime → Outcome β → Prop
  | done {a : α} {b : β} {c' : Runtime} {m' : Machine} :
    State K L c' m' (Q a b * R) → Undisturbed K L c c' → Agrees K L Q R c (.done a, c') (.done b m')
  | fault {f : Fault} {c' : Runtime} {m' : Machine} :
    State K L c' m' R → Undisturbed K L c c' → Agrees K L Q R c (.fault f, c') (.fault f m')
  | exhausted {c' : Runtime} : K.Reaches c c' → Agrees K L Q R c (.exhausted, c') .exhausted

/-- A run on the memory follows one on values. It uses up what one assertion says, and its result
comes with another one. -/
def Follows (K : Charter) (L : Nat) (P : Assertion) (x : Exec α) (y : Eval β)
    (Q : α → β → Assertion) : Prop :=
  ∀ c m R, State K L c m (P * R) → Agrees K L Q R c (x c) (y m)

/-- A run on the memory that the values do not notice. It works with any frame. -/
def Yields (K : Charter) (P : Assertion) (x : Exec α) (Q : α → Assertion) : Prop :=
  ∀ c m R, Scene K c m (P * R) →
    ∃ a c', x c = (.done a, c') ∧ Scene K c' m (Q a * R) ∧ c'.frames = c.frames ∧
      K.Reaches c c'

variable {K : Charter} {L : Nat} {P P' F : Assertion}

theorem Agrees.of_undisturbed {Q : α → β → Assertion} {R : Assertion} {c c' : Runtime}
    {r : Ending α × Runtime} {o : Outcome β} (hc : Undisturbed K L c c')
    (h : Agrees K L Q R c' r o) : Agrees K L Q R c r o := by
  cases h with
  | done hs hu => exact .done hs (hc.trans hu)
  | fault hs hu => exact .fault hs (hc.trans hu)
  | exhausted hr => exact .exhausted (hc.reaches.trans hr)

theorem Agrees.reaches {Q : α → β → Assertion} {R : Assertion} {c : Runtime}
    {r : Ending α × Runtime} {o : Outcome β} (h : Agrees K L Q R c r o) : K.Reaches c r.2 := by
  cases h with
  | done _ hu => exact hu.reaches
  | fault _ hu => exact hu.reaches
  | exhausted hr => exact hr

theorem Agrees.imp {Q Q' : α → β → Assertion} {R R' : Assertion} {c : Runtime}
    {r : Ending α × Runtime} {o : Outcome β} (h : Agrees K L Q R c r o)
    (hQ : ∀ a b, (Q a b * R).Entails (Q' a b * R')) (hR : R.Entails R') :
    Agrees K L Q' R' c r o := by
  cases h with
  | done hs hu => exact .done (hs.imp (hQ _ _)) hu
  | fault hs hu => exact .fault (hs.imp hR) hu
  | exhausted hr => exact .exhausted hr

namespace Yields

variable {x : Exec α} {Q Q' : α → Assertion}

theorem pure {a : α} (h : P.Entails (Q a)) : Yields K P (Pure.pure a : Exec α) Q :=
  fun c _ _ hs => ⟨a, c, rfl, hs.imp (h.mul (Entails.refl _)), rfl, .refl K c⟩

theorem bind {f : α → Exec α'} {R : α' → Assertion} (hx : Yields K P x Q)
    (hf : ∀ a, Yields K (Q a) (f a) R) : Yields K P (x >>= f) R := by
  intro c m F hs
  obtain ⟨a, c', hrun, hs', hframes, hr⟩ := hx c m F hs
  obtain ⟨a', c'', hrun', hs'', hframes', hr'⟩ := hf a c' m F hs'
  exact ⟨a', c'', (Exec.bind_of_done hrun).trans hrun', hs'', hframes'.trans hframes,
    hr.trans hr'⟩

theorem conseq (h : Yields K P x Q) (hP : P'.Entails P) (hQ : ∀ a, (Q a).Entails (Q' a)) :
    Yields K P' x Q' := by
  intro c m R hs
  obtain ⟨a, c', hrun, hs', hc⟩ := h c m R (hs.imp (hP.mul (Entails.refl R)))
  exact ⟨a, c', hrun, hs'.imp ((hQ a).mul (Entails.refl R)), hc⟩

theorem frame (h : Yields K P x Q) (F : Assertion) : Yields K (P * F) x (fun a => Q a * F) := by
  intro c m R hs
  rw [mul_assoc] at hs
  obtain ⟨a, c', hrun, hs', hc⟩ := h c m (F * R) hs
  exact ⟨a, c', hrun, by rwa [mul_assoc], hc⟩

theorem pre (h : Yields K P x Q) (hP : P'.Entails P) : Yields K P' x Q :=
  h.conseq hP fun _ => Entails.refl _

/-- What the assertion says without the memory may be used. -/
theorem learn {p : Prop} (hp : ∀ σ Z S, P.Holds σ Z S → p) (h : p → Yields K P x Q) :
    Yields K P x Q := by
  intro c m R hs
  obtain ⟨Z, S, -, -, -, -, S₁, S₂, -, -, hP, -⟩ := hs.provides
  exact h (hp _ _ _ hP) c m R hs

/-- It works also with the frame of a level. -/
theorem run {c : Runtime} {m : Machine} {R : Assertion} (h : Yields K P x Q)
    (hs : State K L c m (P * R)) :
    ∃ a c', x c = (.done a, c') ∧ State K L c' m (Q a * R) ∧ Undisturbed K L c c' := by
  have hscene := hs.toScene
  rw [mul_left_comm] at hscene
  obtain ⟨a, c', hrun, hs', hframes, hr⟩ := h c m _ hscene
  have hframe (level : Nat) : c'.frame level = c.frame level := by
    simp only [Runtime.frame, hframes]
  refine ⟨a, c', hrun, ⟨?_, hframes ▸ hs.level⟩, hr, by rw [hframes], fun level _ => hframe level⟩
  rw [hframe, mul_left_comm]
  exact hs'

end Yields

namespace Follows

variable {x : Exec α} {y : Eval β} {Q Q' : α → β → Assertion}

theorem pure {a : α} {b : β} (h : P.Entails (Q a b)) :
    Follows K L P (Pure.pure a : Exec α) (Pure.pure b : Eval β) Q :=
  fun c _ _ hs => .done (hs.imp (h.mul (Entails.refl _))) (.refl K L c)

theorem bind {f : α → Exec α'} {g : β → Eval β'} {R : α' → β' → Assertion}
    (hx : Follows K L P x y Q) (hf : ∀ a b, Follows K L (Q a b) (f a) (g b) R) :
    Follows K L P (x >>= f) (y >>= g) R := by
  intro c m F hs
  have hrun := hx c m F hs
  simp only [Bind.bind, Exec.bind, Eval.bind]
  generalize x c = r at hrun
  generalize y m = o at hrun
  cases hrun with
  | done hs' hu => exact (hf _ _ _ _ F hs').of_undisturbed hu
  | fault hs' hu => exact .fault hs' hu
  | exhausted hr => exact .exhausted hr

/-- A part of the run that the values do not notice. -/
theorem step {f : α → Exec α'} {y : Eval β'} {Q : α → Assertion} {R : α' → β' → Assertion}
    (hx : Yields K P x Q) (hf : ∀ a, Follows K L (Q a) (f a) y R) :
    Follows K L P (x >>= f) y R := by
  intro c m F hs
  obtain ⟨a, c', hrun, hs', hu⟩ := hx.run hs
  rw [Exec.bind_of_done hrun]
  exact (hf a c' m F hs').of_undisturbed hu

theorem of_yields {b : β} (hx : Yields K P x fun a => Q a b) :
    Follows K L P x (Pure.pure b : Eval β) Q := by
  intro c m F hs
  obtain ⟨a, c', hrun, hs', hu⟩ := hx.run hs
  rw [hrun]
  exact .done hs' hu

theorem conseq (h : Follows K L P x y Q) (hP : P'.Entails P)
    (hQ : ∀ a b, (Q a b).Entails (Q' a b)) : Follows K L P' x y Q' := by
  intro c m R hs
  refine (h c m R (hs.imp (hP.mul (Entails.refl R)))).imp (fun a b => ?_) (Entails.refl R)
  exact (hQ a b).mul (Entails.refl R)

theorem pre (h : Follows K L P x y Q) (hP : P'.Entails P) : Follows K L P' x y Q :=
  h.conseq hP fun _ _ => Entails.refl _

theorem frame (h : Follows K L P x y Q) (F : Assertion) :
    Follows K L (P * F) x y (fun a b => Q a b * F) := by
  intro c m R hs
  rw [mul_assoc] at hs
  refine (h c m (F * R) hs).imp (fun a b => ?_) mul_entails_right
  rw [mul_assoc]
  exact Entails.refl _

/-- What the assertion says without the memory may be used. -/
theorem learn {p : Prop} (hp : ∀ σ Z S, P.Holds σ Z S → p) (h : p → Follows K L P x y Q) :
    Follows K L P x y Q :=
  fun c m R hs => h (hs.learn hp) c m R hs

theorem of_fact {p : Prop} (h : p → Follows K L P x y Q) : Follows K L (fact p * P) x y Q := by
  refine learn (fun σ Z S hfact => (fact_mul.mp hfact).1) fun hp => ?_
  exact (h hp).pre mul_entails_right

theorem raise (cause : Cause) (location : Location) :
    Follows K L P (Exec.raise cause location : Exec α)
      (Evaluation.raise cause location : Eval β) Q :=
  fun c _ _ hs => .fault (hs.imp mul_entails_right) (.refl K L c)

theorem exhausted :
    Follows K L P (Exec.exhausted : Exec α) (Evaluation.exhausted : Eval β) Q :=
  fun c _ _ _ => .exhausted (.refl K c)

end Follows

end

end Script
