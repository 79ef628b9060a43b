import Script.Proofs.Memory.Host

/-! # Where the entries of the heap come from

Every function and class of the heap is what a declaration in the program makes, and only the
execution of a declaration changes an entry. Instances, receivers and other copies of a class can
be changed at will: the class itself stays as it was declared. -/

namespace Script

/-- An entry is what a statement in the program declares under its name. -/
def Program.Declares (program : Program) (name : Text) (v : Value) : Prop :=
  ∃ d : Stmt, d.OccursIn program.body ∧ d.Declares name v

/-- A run of a program executes what occurs in it, and declares nothing else. -/
def Program.charter (program : Program) : Charter where
  Body s := s.OccursIn program.body
  Entry := program.Declares
  inside hd hblock hs := hd.block hblock (.here hs)
  declares hd hv := ⟨_, hd, hv⟩

/-- Every entry of the heap stands for what a statement in the program declares. -/
def Program.DeclaresAll (program : Program) (c : Runtime) : Prop :=
  ∀ name w, Table.get? c.heap name = some w →
    ∃ v, c.declaration? name = some v ∧ program.Declares name v

/-- What a change does to the heap. Only a declaration that occurs in the program, while it is the
statement that began last, sets an entry, to what it makes. All other entries stand for the same as
before, and none is removed. -/
structure Program.Advances (program : Program) (c : Runtime) (change : Change) : Prop where
  made : ∀ d w, change = .declare d w → d.OccursIn program.body ∧ c.statement? = some d ∧
    ∃ v, (c.apply change).declaration? d.declaredName = some v ∧ d.Declares d.declaredName v
  kept : ∀ name, (∀ d w, change = .declare d w → d.declaredName ≠ name) →
    (c.apply change).declaration? name = c.declaration? name
  grows : ∀ name, (c.declaration? name).isSome → ((c.apply change).declaration? name).isSome

theorem Charter.Advance.advances {program : Program} {c : Runtime} {change : Change}
    (h : program.charter.Advance c change) : program.Advances c change := by
  have hkept : ∀ name, (∀ d w, change = .declare d w → d.declaredName ≠ name) →
      (c.apply change).declaration? name = c.declaration? name := by
    intro name hname
    refine h.kept name fun htarget => ?_
    have hpermitted := h.permitted
    cases change with
    | declare d w => exact hname d w rfl (Option.some.inj htarget)
    | define other w => exact hpermitted
    | _ => cases htarget
  refine ⟨fun d w hd => ⟨?_, h.made d w hd⟩, hkept, fun name hname => ?_⟩
  · have hpermitted := h.permitted
    rw [hd] at hpermitted
    exact hpermitted
  · by_cases hdeclared : ∃ d w, change = .declare d w ∧ d.declaredName = name
    · obtain ⟨d, w, hd, rfl⟩ := hdeclared
      obtain ⟨-, v, hv, -⟩ := h.made d w hd
      simp [hv]
    · rwa [hkept name fun d w hd heq => hdeclared ⟨d, w, hd, heq⟩]

theorem Runtime.record?_apply (c : Runtime) (change : Change) :
    (c.apply change).record? = c.record?.map (change :: ·) := by
  cases change with
  | write slot w => cases slot <;> rfl
  | _ => rfl

/-- The record of a runtime holds the changes that have led to it. -/
theorem Runtime.record?_foldl (changes : List Change) (c : Runtime) :
    (changes.foldl Runtime.apply c).record? = c.record?.map (changes.reverse ++ ·) := by
  induction changes generalizing c with
  | nil => simp
  | cons change rest ih =>
      rw [List.foldl_cons, ih, c.record?_apply, Option.map_map]
      congr 1
      funext past
      simp

/-- While a program runs in a fresh host, also up to a fault, every entry of the heap is what one
of its statements declares; no entry is ever removed; and an entry changes only when a declaration
of its name is executed, to what that declaration makes. -/
theorem heap_declared_by_program (program : Program) (args : Option (List Text))
    (limit rounds : Nat) (record? : Option (List Change)) :
    let h := Host.setLimit { runtime := { record? := record? } } limit
    let final := (h.perform rounds (Operation.ofProgram program args).carryOut).2
    ∃ changes, changes.foldl Runtime.apply h.runtime = final ∧
      final.record? = record?.map (changes.reverse ++ ·) ∧
      (∀ past, past <+: changes → program.DeclaresAll (past.foldl Runtime.apply h.runtime)) ∧
      ∀ past change, past ++ [change] <+: changes →
        program.Advances (past.foldl Runtime.apply h.runtime) change := by
  intro h final
  have hrules : h.rules.Within program.charter := Rules.within_of_standard rfl
  have hop : (Operation.ofProgram program args).Within program.charter := by
    cases args <;> exact fun s hs => .here hs
  have hrun := (hrules.mirrors rounds).carryOut hop h.runtime {} 1
    (by rw [one_mul]; exact .fresh _ record?)
  obtain ⟨changes, hcourse, hfinal⟩ := hrun.reaches
  refine ⟨changes, hfinal, ?_, fun past hpast => ?_, fun past change hpast =>
    (hcourse.advance hpast).advances⟩
  · rw [show final = _ from hfinal.symm, Runtime.record?_foldl]
    rfl
  · rcases List.eq_nil_or_concat past with rfl | ⟨past, change, rfl⟩
    · rintro name w ⟨⟩
    · rw [List.concat_eq_append] at hpast ⊢
      rw [List.foldl_append]
      exact (hcourse.advance hpast).entries

/-- Declares a class, and once more in a body. Then puts an instance of it into a property of
another one, and calls a function that is not there. -/
def Program.nestedBoxes : Program where
  token := {}
  body := [
    .classDef "Box" [] {},
    .func "refit" [] [.classDef "Box" [.func "open" [] [] {}] {}] {},
    .expr (.call (.ident "refit" {}) [] {}) {},
    .expr (.assign (.ident "box" {}) (.construct "Box" [] {}) {}) {},
    .expr (.assign (.member (.ident "box" {}) "content" {}) (.construct "Box" [] {}) {}) {},
    .expr (.call (.ident "close" {}) [] {}) {}]

theorem class_kept_by_instances :
    let h := Host.setLimit { runtime := { record? := some [] } } 8
    let result := h.perform 2 (Operation.ofProgram Program.nestedBoxes none).carryOut
    ∃ f s change past, result.1 = .fault f ∧
      result.2.record? = some (.start s :: change :: List.reverse past) ∧
      change = .write (.field 3 "content") (.object 5) ∧
      (past ++ [change, .start s]).foldl Runtime.apply h.runtime = result.2 ∧
      Program.nestedBoxes.Advances (past.foldl Runtime.apply h.runtime) change ∧
      Program.nestedBoxes.DeclaresAll result.2 := by
  obtain ⟨changes, hfinal, hrecord, hall, hadvances⟩ :=
    heap_declared_by_program Program.nestedBoxes none 8 2 (some [])
  dsimp only
  generalize hresult : Host.perform (Host.setLimit { runtime := { record? := some [] } } 8) 2
    (Operation.ofProgram Program.nestedBoxes none).carryOut = result at *
  obtain ⟨f, s, rest, hfault, hrest⟩ : ∃ f s rest, result.1 = .fault f ∧
      result.2.record? = some (.start s :: .write (.field 3 "content") (.object 5) :: rest) := by
    rw [← hresult]
    exact ⟨_, _, _, rfl, rfl⟩
  obtain rfl : changes = rest.reverse ++ [.write (.field 3 "content") (.object 5), .start s] := by
    have hreverse : changes.reverse ++ [] = _ := Option.some.inj (hrecord.symm.trans hrest)
    rw [List.append_nil] at hreverse
    rw [← changes.reverse_reverse, hreverse]
    simp
  have hend := hall _ List.prefix_rfl
  rw [hfinal] at hend
  have hwrite := hadvances rest.reverse (.write (.field 3 "content") (.object 5))
    ⟨[.start s], by simp⟩
  refine ⟨f, s, _, rest.reverse, hfault, ?_, rfl, hfinal, hwrite, hend⟩
  rw [List.reverse_reverse]
  exact hrest

end Script
