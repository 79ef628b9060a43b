import Script.Proofs.Memory.Follows

/-!
# Effects on the memory

What each single effect on the memory does for the values that are in it.
-/

namespace Script

open Assertion

/-! ## Cells -/

/-- The changes that concern nothing but cells. -/
def Change.OfCells : Change → Prop
  | .alloc _ | .write (.item _ _) _ | .write (.field _ _) _ => True
  | _ => False

theorem Change.OfCells.apply_eq {change : Change} (h : change.OfCells) (c : Runtime) :
    c.apply change =
      { c with memory := (c.apply change).memory, record? := (c.apply change).record? } := by
  cases change with
  | alloc cell => rfl
  | write slot w =>
      cases slot with
      | var level name => cases h
      | _ => rfl
  | _ => cases h

theorem Change.OfCells.quiet {change : Change} (h : change.OfCells) : change.Quiet := by
  cases change with
  | alloc cell => trivial
  | write slot w => trivial
  | _ => cases h

section

variable {K : Charter} {L : Nat} {c : Runtime} {m : Machine} {P P' R : Assertion}

/-- A change of cells that only one of the assertions notices. -/
theorem Scene.cells (h : Scene K c m (P * R)) {change : Change} (hchange : change.OfCells)
    (hsize : c.memory.size ≤ (c.apply change).memory.size)
    (hP : ∀ Z S, c.memory.Has Z → c.memory.Has S → P.Holds c.memory Z S →
      (∀ a < c.memory.size, a ∉ S → (c.apply change).memory.cell? a = c.memory.cell? a) ∧
        ∃ S', (c.apply change).memory.Has S' ∧ (∀ a ∈ S', a ∈ S ∨ c.memory.size ≤ a) ∧
          P'.Holds (c.apply change).memory Z S') :
    Scene K (c.apply change) m (P' * R) ∧ (c.apply change).frames = c.frames ∧
      K.Reaches c (c.apply change) := by
  have hprovides : Provides K (c.apply change).memory m.heap (c.apply change).heap (P' * R) := by
    rw [hchange.apply_eq c]
    exact h.provides.update hsize hP
  have hreaches := Charter.Reaches.single
    (Charter.Advance.of_quiet h.provides hprovides hchange.quiet)
  rw [hchange.apply_eq c] at hreaches hprovides ⊢
  exact ⟨⟨h.depth, h.printed, h.nextBody, hprovides⟩, rfl, hreaches⟩

/-- A new cell comes to the assertion that asked for it. -/
theorem Yields.alloc {cell : Cell} {Q : Address → Assertion}
    (h : ∀ (σ : Memory) Z S, P.Holds (σ.alloc cell) Z S → σ.size ∉ S →
      (Q σ.size).Holds (σ.alloc cell) Z (insert σ.size S)) :
    Yields K P (Exec.alloc cell) Q := by
  intro c m R hs
  let change : Change := .alloc cell
  have hmemory : (c.apply change).memory = c.memory.alloc cell := rfl
  have hnew : Scene K (c.apply change) m (Q c.memory.size * R) ∧
      (c.apply change).frames = c.frames ∧ K.Reaches c (c.apply change) := by
    refine hs.cells trivial (by simp [hmemory]) fun Z S hZ hS hP => ?_
    have hsame : ∀ a < c.memory.size, (c.memory.alloc cell).cell? a = c.memory.cell? a :=
      fun a ha => c.memory.cell?_alloc cell ha
    have hold : P.Holds (c.memory.alloc cell) Z S := by
      refine P.stable hP (fun a ha => hsame a ?_) Finset.Subset.rfl
      exact Finset.mem_range.mp (ha.elim (hZ ·) (hS ·))
    have hfresh : c.memory.size ∉ S :=
      fun hin => absurd (Finset.mem_range.mp (hS hin)) (Nat.lt_irrefl _)
    refine ⟨fun a ha _ => hsame a ha, insert c.memory.size S, ?_, fun a ha => ?_,
      h c.memory Z S hold hfresh⟩
    · rw [hmemory, Memory.Has, Memory.size_alloc, Finset.range_add_one]
      exact Finset.insert_subset_insert _ hS
    · rcases Finset.mem_insert.mp ha with rfl | ha
      · exact .inr le_rfl
      · exact .inl ha
  exact ⟨c.memory.size, c.apply change, rfl, hnew⟩

theorem Yields.array {values : List Value} {ws : List Word} :
    Yields K (words K values ws) (Exec.alloc (.items ws))
      (fun a => word K (.array values) (.array a)) := by
  refine .alloc fun σ Z S hP hfresh => depicts_array.mpr
    ⟨σ.size, ws, rfl, Finset.mem_insert_self _ _, σ.cell?_alloc_self _, ?_⟩
  rw [Finset.erase_insert hfresh]
  exact hP

theorem Yields.object {t : Table Value} {e : Table Word} :
    Yields K (table K t e) (Exec.alloc (.fields e))
      (fun a => word K (.object t) (.object a)) := by
  refine .alloc fun σ Z S hP hfresh => depicts_object.mpr
    ⟨σ.size, e, rfl, Finset.mem_insert_self _ _, σ.cell?_alloc_self _, hP.1, ?_⟩
  rw [Finset.erase_insert hfresh]
  exact hP.2

/-! ## Copies -/

mutual

theorem Yields.build (v : Value) (hv : v.Throughout K.Allows) :
    Yields K 1 (Exec.build v) (fun w => word K v w) := by
  match v with
  | .array items =>
      rw [Exec.build]
      refine .bind (Yields.buildItems items (Value.throughout_array.mp hv).2) fun ws => ?_
      exact .bind .array fun a => .pure (Entails.refl _)
  | .object fields =>
      rw [Exec.build]
      obtain ⟨hsorted, hfields⟩ := Value.throughout_object.mp hv
      refine .bind (Yields.buildFields fields hsorted hfields) fun e => ?_
      exact .bind .object fun a => .pure (Entails.refl _)
  | .function f =>
      rw [Exec.build]
      exact .pure fun _ _ _ _ => ⟨rfl, (Value.throughout_of_parts rfl).mp hv⟩
  | .null | .number _ | .string _ | .boolean _ | .nameRef _ =>
      rw [Exec.build]
      exact .pure fun _ _ _ _ => rfl

theorem Yields.buildItems (items : List Value) (hitems : ∀ v ∈ items, v.Throughout K.Allows) :
    Yields K 1 (Exec.buildItems items) (fun ws => words K items ws) := by
  match items with
  | [] =>
      rw [Exec.buildItems]
      exact .pure words_nil
  | v :: rest =>
      rw [Exec.buildItems]
      obtain ⟨hv, hrest⟩ := List.forall_mem_cons.mp hitems
      refine .bind (Yields.build v hv) fun w => ?_
      have hothers := (Yields.buildItems rest hrest).frame (word K v w)
      rw [one_mul] at hothers
      refine .bind hothers fun ws => .pure ?_
      rw [mul_comm]
      exact words_cons

theorem Yields.buildFields (fields : Table Value) (hsorted : Table.Sorted fields)
    (hfields : Table.Each (Value.Throughout K.Allows) fields) :
    Yields K 1 (Exec.buildFields fields) (fun e => table K fields e) := by
  match fields with
  | [] =>
      rw [Exec.buildFields]
      exact .pure table_nil
  | (key, v) :: rest =>
      rw [Exec.buildFields]
      obtain ⟨hv, hrest⟩ := List.forall_mem_cons.mp hfields
      refine .bind (Yields.build v hv) fun w => ?_
      have hothers := (Yields.buildFields rest (List.Pairwise.of_cons hsorted) hrest).frame
        (word K v w)
      rw [one_mul] at hothers
      refine .bind hothers fun e => .pure ?_
      rw [mul_comm]
      rintro σ Z S ⟨S₁, S₂, hparts, hsub, hfirst, -, hspread⟩
      exact ⟨hsorted, (key, w), e, S₁, S₂, rfl, hparts, hsub, ⟨rfl, hfirst⟩, hspread⟩

end

theorem Runtime.Shows.allows {v : Value} {w : Word} (h : c.Shows K v w) :
    v.Throughout K.Allows := by
  obtain ⟨T, -, hv⟩ := h
  exact Depicts.allows v hv

theorem Runtime.Shows.view_eq {v : Value} {w : Word} (h : c.Shows K v w) :
    Exec.view w c = (.done v, c) := by
  simp only [Exec.view, h.read_eq]

/-- Whatever can be read can be copied. -/
theorem Yields.copy_of_shows {v : Value} {w : Word}
    (h : ∀ c m R, Scene K c m (P * R) → c.Shows K v w) :
    Yields K P (Exec.copy w) (fun w' => word K v w' * P) := by
  intro c m R hs
  have hw := h c m R hs
  obtain ⟨w', c', hrun, hnew⟩ := Yields.build v hw.allows c m (P * R) (by rwa [one_mul])
  refine ⟨w', c', ?_, by rwa [mul_assoc]⟩
  simp only [Exec.copy, Bind.bind, Exec.bind, hw.view_eq, hrun]

theorem Yields.copy {v : Value} {w : Word} :
    Yields K (word K v w) (Exec.copy w) (fun w' => word K v w' * word K v w) :=
  .copy_of_shows fun _ _ _ hs => hs.shows_word

theorem Yields.copy_frozen {v : Value} {w : Word} :
    Yields K (frozen K v w) (Exec.copy w) (fun w' => word K v w') :=
  (copy_of_shows fun _ _ _ hs => hs.shows_frozen).conseq (Entails.refl _) fun _ => mul_entails_left

theorem Yields.view {v : Value} {w : Word} :
    Yields K (word K v w) (Exec.view w) (fun v' => fact (v' = v) * word K v w) := by
  intro c m R hs
  refine ⟨v, c, hs.shows_word.view_eq, hs.imp ?_, rfl, .refl K c⟩
  exact Entails.mul (fun _ _ _ hv => fact_mul.mpr ⟨rfl, hv⟩) (Entails.refl R)

/-- A copy of what can be read from a level. -/
theorem State.copy {v : Value} {w : Word} (h : State K L c m R) (hw : c.Shows K v w) :
    ∃ w' c', Exec.copy w c = (.done w', c') ∧ State K L c' m (word K v w' * R) ∧
      Undisturbed K L c c' := by
  obtain ⟨w', c', hrun, hnew⟩ := (Yields.build v hw.allows).run (by rwa [one_mul])
  refine ⟨w', c', ?_, hnew⟩
  simp only [Exec.copy, Bind.bind, Exec.bind, hw.view_eq, hrun]

/-! ## Variables -/

theorem Runtime.frame_assign (hL : L < c.frames.size) (name : Text) (w : Word) :
    (c.apply (.write (.var L name) w)).frame L = Table.insert name w (c.frame L) := by
  simp [Runtime.frame, Runtime.apply, Runtime.note, Runtime.turn, Runtime.put,
    Array.getElem_modify, hL]

theorem Runtime.frame_assign_ne {level : Nat} (h : level ≠ L) (name : Text) (w : Word) :
    (c.apply (.write (.var L name) w)).frame level = c.frame level := by
  simp [Runtime.frame, Runtime.apply, Runtime.note, Runtime.turn, Runtime.put,
    Array.getElem?_modify, h.symm]

theorem Follows.assign (name : Text) {v : Value} {w : Word} :
    Follows K L (word K v w) (Exec.assign L name w) (Evaluation.assign name v : Eval Unit)
      (fun _ _ => 1) := by
  intro c m R hs
  have hprovides : Provides K c.memory m.heap c.heap
      (table K (Table.insert name v m.frame) ((c.apply (.write (.var L name) w)).frame L) *
        (1 * R)) := by
    rw [one_mul, c.frame_assign hs.level]
    refine hs.provides.imp ?_
    rw [← mul_assoc]
    exact (table_insert name).mul (Entails.refl R)
  have hsize : (c.apply (.write (.var L name) w)).frames.size = c.frames.size :=
    Array.size_modify
  refine .done ⟨⟨hs.depth, hs.printed, hs.nextBody, hprovides⟩, hsize ▸ hs.level⟩
    ⟨.single (.of_quiet hs.provides hprovides trivial), hsize, ?_⟩
  exact fun level hne => c.frame_assign_ne hne name w

theorem Follows.read (name : Text) :
    Follows K L 1 (Exec.read L name) (Evaluation.read name : Eval Value)
      (fun w v => word K v w) := by
  intro c m R hs
  have hread : (Evaluation.read name : Eval Value) m =
      .done ((Table.get? m.frame name).getD .null) m := rfl
  simp only [Exec.read, Exec.lookup?, Exec.ask, Bind.bind, Exec.bind, hread]
  rcases hs.lookup name with ⟨hget, hget'⟩ | ⟨v, w, hget, hget', hv⟩
  · rw [hget, hget']
    exact .done (hs.imp ((show Entails 1 (word K .null .null) from fun _ _ _ _ => rfl).mul
      (Entails.refl R))) (.refl K L c)
  · rw [hget, hget']
    obtain ⟨w', c', hrun, hs', hu⟩ := hs.copy hv
    simp only [hrun, Option.getD_some]
    exact .done (hs'.imp ((Entails.refl _).mul mul_entails_right)) hu

theorem Follows.resolve {v : Value} {w : Word} :
    Follows K L (word K v w) (Exec.resolve L w) (Evaluation.resolve v : Eval Value)
      (fun w v => word K v w) := by
  refine .learn (p := w.shell = v.shell) (fun _ _ _ h => Depicts.shell_eq h) fun hshell => ?_
  cases Word.like_of_shell hshell with
  | nameRef name => exact (Follows.read name).pre (entails_one _)
  | _ => exact .pure (Entails.refl _)

/-! ## The heap and the rest -/

/-- A statement begins, which the values do not notice. -/
theorem State.start (h : State K L c m R) (s : Stmt) :
    State K L (c.apply (.start s)) m R ∧ Undisturbed K L c (c.apply (.start s)) :=
  ⟨⟨⟨h.depth, h.printed, h.nextBody, h.provides⟩, h.level⟩,
    .single (.of_quiet h.provides h.provides trivial), rfl, fun _ _ => rfl⟩

theorem Follows.start {α β : Type} {x : Exec α} {y : Eval β} {Q : α → β → Assertion} (s : Stmt)
    (h : Follows K L P x y Q) : Follows K L P (Exec.change (.start s) >>= fun _ => x) y Q := by
  intro c m R hs
  obtain ⟨hs', hu⟩ := hs.start s
  exact (h _ m R hs').of_undisturbed hu

/-- A declaration puts what it has made into the heap, while it is the statement that began last. -/
theorem State.declare {d : Stmt} {v : Value} {w : Word} (h : State K L c m (word K v w * R))
    (hbody : K.Body d) (hcurrent : c.statement? = some d) (hd : d.Declares d.declaredName v) :
    State K L (c.apply (.declare d w))
        { m with heap := Table.insert d.declaredName v m.heap } R ∧
      Undisturbed K L c (c.apply (.declare d w)) := by
  have hbefore := h.provides
  rw [mul_left_comm] at hbefore
  have hprovides := hbefore.declare (K.declares hbody hd)
  have hget : Table.get? (Table.insert d.declaredName v m.heap) d.declaredName = some v := by
    simp [Table.get?_insert]
  have hstep : K.Advance c (.declare d w) := by
    refine .of_provides h.provides hprovides hbody (fun name hname => ?_) ?_ ?_
    · exact Table.get?_insert_of_ne (fun heq => hname (congrArg some heq)) v m.heap
    · rintro _ _ ⟨⟩
      exact ⟨hcurrent, v, hget, hd⟩
    · rintro _ ⟨⟩
  exact ⟨⟨⟨h.depth, h.printed, h.nextBody, hprovides⟩, h.level⟩, .single hstep, rfl,
    fun _ _ => rfl⟩

/-- A run in which no statement begins. -/
def Exec.Still {α : Type} (x : Exec α) : Prop :=
  ∀ c, (x c).2.statement? = c.statement?

theorem Exec.Still.bind {α β : Type} {x : Exec α} {f : α → Exec β} (hx : x.Still)
    (hf : ∀ a, (f a).Still) : (x >>= f : Exec β).Still := by
  intro c
  have hc := hx c
  simp only [Bind.bind, Exec.bind]
  generalize x c = r at hc
  rcases r with ⟨a | e | _, c'⟩
  · exact (hf a c').trans hc
  · exact hc
  · exact hc

/-- A declaration is executed: it begins, makes what it declares, and puts that into the heap. -/
theorem Follows.declaration {α β γ δ : Type} {d : Stmt} {name : Text} {x : Exec α} {y : Eval β}
    {f : α → Word} {g : β → Value} {rest : Exec γ} {rest' : Eval δ} {Q : γ → δ → Assertion}
    (hbody : K.Body d) (hname : d.declaredName = name) (hstill : x.Still)
    (hx : Follows K L P x y fun a b => fact (d.Declares name (g b)) * word K (g b) (f a))
    (hrest : Follows K L 1 rest rest' Q) :
    Follows K L P
      (Exec.change (.start d) >>= fun _ =>
        x >>= fun a => Exec.change (.declare d (f a)) >>= fun _ => rest)
      (y >>= fun b => Evaluation.declare name (g b) >>= fun _ => rest') Q := by
  subst hname
  intro c m R hs
  obtain ⟨hstart, hu⟩ := hs.start d
  have hrun := hx _ m R hstart
  have hcurrent := hstill (c.apply (.start d))
  refine Agrees.of_undisturbed hu ?_
  simp only [Bind.bind, Exec.bind, Eval.bind, Exec.change]
  generalize x (c.apply (.start d)) = r at hrun hcurrent
  generalize y m = o at hrun
  cases hrun with
  | done hmade hu' =>
      have hd := hmade.learn fun _ _ _ hfact => (fact_mul.mp hfact).1
      have hword := hmade.imp (mul_entails_right.mul (Entails.refl R))
      obtain ⟨hstate, hu''⟩ := hword.declare hbody hcurrent hd
      exact (hrest _ _ R (by rwa [one_mul])).of_undisturbed (hu'.trans hu'')
  | fault hs' hu' => exact .fault hs' hu'
  | exhausted hr => exact .exhausted hr

/-- Both are missing, or both are there and related. -/
def Assertion.optional {α β : Type} (A : α → β → Assertion) : Option α → Option β → Assertion
  | none, none => 1
  | some a, some b => A a b
  | _, _ => fact False

theorem Follows.declared? (name : Text) :
    Follows K L 1 (Exec.declared? name) (Evaluation.declared? name : Eval (Option Value))
      (Assertion.optional fun w v => frozen K v w) := by
  intro c m R hs
  have hdeclared : (Evaluation.declared? name : Eval (Option Value)) m =
      .done (Table.get? m.heap name) m := rfl
  simp only [Exec.declared?, Exec.ask, hdeclared]
  rcases hs.provides.entry name with ⟨hget, hget'⟩ | ⟨v, w, hget, hget', -, hprovides⟩
  · rw [hget, hget']
    exact .done hs (.refl K L c)
  · rw [hget, hget']
    rw [one_mul, mul_left_comm] at hprovides
    exact .done ⟨{ hs.toScene with provides := hprovides }, hs.level⟩ (.refl K L c)

/-- A fact comes without cells. -/
theorem Assertion.one_entails_fact {p : Prop} (hp : p) : Entails 1 (fact p) :=
  fun _ _ _ _ => hp

theorem Follows.freshBody :
    Follows K L 1 Exec.freshBody (Evaluation.freshBody : Eval BodyId) same := by
  intro c m R hs
  have hid : BodyId.declared c.nextBody = .declared m.nextBody := by rw [hs.nextBody]
  have hprovides := hs.provides.imp
    ((Entails.refl _).mul ((one_entails_fact hid).mul (Entails.refl R)))
  exact .done ⟨⟨hs.depth, hs.printed, congrArg (· + 1) hs.nextBody, hprovides⟩, hs.level⟩
    ⟨.single (.of_quiet hs.provides hs.provides trivial), rfl, fun _ _ => rfl⟩

theorem Follows.print (text : Text) :
    Follows K L 1 (Exec.change (.print text)) (Evaluation.print text : Eval Unit)
      (fun _ _ => 1) := by
  intro c m R hs
  exact .done
    ⟨⟨hs.depth, congrArg (text :: ·) hs.printed, hs.nextBody, hs.provides⟩, hs.level⟩
    ⟨.single (.of_quiet hs.provides hs.provides trivial), rfl, fun _ _ => rfl⟩

theorem Follows.depth :
    Follows K L 1 Exec.depth (Evaluation.depth : Eval Nat) same := by
  intro c m R hs
  exact .done (hs.imp ((one_entails_fact hs.depth).mul (Entails.refl R))) (.refl K L c)

/-! ## Frames -/

theorem Runtime.frame_enter (frame : Table Word) :
    (c.apply (.enter frame)).frame c.frames.size = frame := by
  simp [Runtime.frame, Runtime.apply, Runtime.note, Runtime.turn]

theorem Runtime.frame_enter_ne (frame : Table Word) {level : Nat} (h : level ≠ c.frames.size) :
    (c.apply (.enter frame)).frame level = c.frame level := by
  simp only [Runtime.frame, Runtime.apply, Runtime.note, Runtime.turn, Array.getD_eq_getD_getElem?,
    Array.getElem?_push, if_neg h]

theorem Runtime.frame_leave {level : Nat} (h : level + 1 ≠ c.frames.size) :
    (c.apply .leave).frame level = c.frame level := by
  simp only [Runtime.frame, Runtime.apply, Runtime.note, Runtime.turn, Array.getD_eq_getD_getElem?,
    Array.getElem?_pop]
  split
  · rfl
  · rw [Array.getElem?_eq_none (by omega)]

theorem Runtime.frame_of_le {level : Nat} (h : c.frames.size ≤ level) : c.frame level = [] := by
  simp [Runtime.frame, h]

/-- The frame of the caller waits among the other things in the memory. -/
theorem State.enter {frame : Frame} {e : Table Word} (h : State K L c m (table K frame e * R)) :
    State K c.frames.size (c.apply (.enter e)) { m with frame := frame, depth := m.depth + 1 }
        (table K m.frame (c.frame L) * R) ∧
      K.Reaches c (c.apply (.enter e)) := by
  have hprovides := h.provides
  rw [mul_left_comm] at hprovides
  have hnew : Provides K (c.apply (.enter e)).memory m.heap (c.apply (.enter e)).heap
      (table K frame ((c.apply (.enter e)).frame c.frames.size) *
        (table K m.frame (c.frame L) * R)) := by
    rw [c.frame_enter]
    exact hprovides
  have hstate : State K c.frames.size (c.apply (.enter e))
      { m with frame := frame, depth := m.depth + 1 } (table K m.frame (c.frame L) * R) :=
    ⟨⟨congrArg (· + 1) h.depth, h.printed, h.nextBody, hnew⟩,
      (Nat.lt_succ_self _).trans_eq (Array.size_push e).symm⟩
  refine ⟨hstate, .single (.of_provides h.provides hnew trivial (fun _ _ => rfl) ?_ ?_)⟩
  · rintro _ _ ⟨⟩
  · rintro _ ⟨⟩
    exact ⟨_, hstate.imp (entails_one _)⟩

/-- And it comes back when the body ends. -/
theorem State.leave {level : Nat} {frame : Frame}
    (h : State K level c m (P * (table K frame (c.frame L) * R)))
    (hsize : c.frames.size = level + 1) (hL : L < level) :
    State K L (c.apply .leave) { m with frame := frame, depth := m.depth - 1 }
        (P * table K m.frame (c.frame level) * R) ∧
      K.Reaches c (c.apply .leave) := by
  have hprovides : Provides K c.memory m.heap c.heap
      (table K frame (c.frame L) * (P * table K m.frame (c.frame level) * R)) := by
    have hall := h.provides
    rwa [mul_left_comm P, mul_left_comm, ← mul_assoc, ← mul_assoc, mul_assoc (table K frame _),
      mul_comm _ P, mul_assoc] at hall
  have hframe : (c.apply .leave).frame L = c.frame L := c.frame_leave (by omega)
  have hnew : Provides K (c.apply .leave).memory m.heap (c.apply .leave).heap
      (table K frame ((c.apply .leave).frame L) *
        (P * table K m.frame (c.frame level) * R)) := by
    rw [hframe]
    exact hprovides
  refine ⟨⟨⟨congrArg (· - 1) h.depth, h.printed, h.nextBody, hnew⟩, ?_⟩,
    .single (.of_quiet h.provides hnew trivial)⟩
  have hpop : (c.apply .leave).frames.size = c.frames.size - 1 := Array.size_pop
  omega

theorem Undisturbed.body {e : Table Word} {c' : Runtime} (hL : L < c.frames.size)
    (h : Undisturbed K c.frames.size (c.apply (.enter e)) c')
    (hbegin : K.Reaches c (c.apply (.enter e))) (hend : K.Reaches c' (c'.apply .leave)) :
    Undisturbed K L c (c'.apply .leave) := by
  have hpush : (c.apply (.enter e)).frames.size = c.frames.size + 1 := Array.size_push e
  have hpop : (c'.apply .leave).frames.size = c'.frames.size - 1 := Array.size_pop
  have hsize := h.size
  refine ⟨hbegin.trans (h.reaches.trans hend), by omega, fun level hne => ?_⟩
  by_cases hlevel : level = c.frames.size
  · rw [Runtime.frame_of_le (by omega), Runtime.frame_of_le (by omega)]
  · rw [c'.frame_leave (by omega), h.others level hlevel, c.frame_enter_ne e hlevel]

/-- A body has a frame of its own at a new level. What it leaves there comes with its result. -/
theorem Follows.inFrame {α β : Type} {Q : α → β → Assertion} {body : Nat → Exec α} {y : Eval β}
    {frame : Frame} {e : Table Word} (hbody : ∀ level, Follows K level 1 (body level) y Q) :
    Follows K L (table K frame e) (Exec.inFrame e body) (Evaluation.inFrame frame y : Eval _)
      (fun r s => Q r.1 s.1 * table K s.2 r.2) := by
  intro c m R hs
  obtain ⟨hstart, hbegin⟩ := hs.enter
  have hrun := hbody c.frames.size _ _ _ (by rwa [one_mul])
  have hpush : (c.apply (.enter e)).frames.size = c.frames.size + 1 := Array.size_push e
  simp only [Exec.inFrame, Evaluation.inFrame, Eval.inFrame]
  generalize body c.frames.size (c.apply (.enter e)) = r at hrun
  generalize y { m with frame := frame, depth := m.depth + 1 } = o at hrun
  cases hrun with
  | @done a b c' m' hs' hu =>
      have hcaller : c.frame L = c'.frame L := by
        rw [hu.others L hs.level.ne, c.frame_enter_ne e hs.level.ne]
      rw [hcaller] at hs'
      obtain ⟨hfinal, hend⟩ := hs'.leave (hu.size.trans hpush) hs.level
      exact .done hfinal (hu.body hs.level hbegin hend)
  | @fault f c' m' hs' hu =>
      have hcaller : c.frame L = c'.frame L := by
        rw [hu.others L hs.level.ne, c.frame_enter_ne e hs.level.ne]
      rw [hcaller, ← one_mul (table K m.frame _ * R)] at hs'
      obtain ⟨hfinal, hend⟩ := hs'.leave (hu.size.trans hpush) hs.level
      exact .fault (hfinal.imp mul_entails_right) (hu.body hs.level hbegin hend)
  | exhausted hr => exact .exhausted (hbegin.trans hr)

end

end Script
