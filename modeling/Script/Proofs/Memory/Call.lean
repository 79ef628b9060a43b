import Script.Proofs.Memory.Slots

/-!
# Calls, texts and built-in functions follow each other

Arguments and receivers are bound without being copied. That is as good as binding copies, because
the words of a call belong to it alone.
-/

namespace Script

open Assertion

section

variable {K : Charter} {L : Nat} {P F R : Assertion} {v : Value} {w : Word} {values : List Value}
  {ws : List Word} {t : Table Value} {e : Table Word}

/-- One part of a run beside what the next one needs. -/
theorem Follows.beside {α α' β β' : Type} {x : Exec α} {y : Eval β} {f : α → Exec α'}
    {g : β → Eval β'} {Q : α → β → Assertion} {R : α' → β' → Assertion}
    (hx : Follows K L 1 x y Q) (hf : ∀ a b, Follows K L (Q a b * F) (f a) (g b) R) :
    Follows K L F (x >>= f) (y >>= g) R := by
  have hframe := hx.frame F
  rw [one_mul] at hframe
  exact hframe.bind hf

/-! ## Frames of calls -/

theorem Assertion.table_bind (params : List Text) :
    (table K t e * words K values ws).Entails
      (table K (Frame.bind t params values) (Frame.bind e params ws)) := by
  induction params generalizing t e values ws with
  | nil => exact mul_entails_left
  | cons name rest ih =>
      cases values with
      | nil =>
          rintro σ Z S ⟨S₁, S₂, -, hsub, ht, hnil⟩
          rw [show ws = [] from hnil]
          exact (table K t e).mono ht (Finset.union_subset_iff.mp hsub).1
      | cons v values =>
          rintro σ Z S ⟨S₁, S₂, hparts, hsub, ht, w, ws, T₁, T₂, rfl, hown, hsub', hv, hrest⟩
          obtain ⟨h₁, h₂⟩ := Finset.union_subset_iff.mp hsub'
          have hinsert := table_insert name σ Z (S₁ ∪ T₁)
            ⟨S₁, T₁, hparts.mono_right h₁, Finset.Subset.rfl, ht, hv⟩
          refine ih σ Z S ⟨S₁ ∪ T₁, T₂, ?_, ?_, hinsert, hrest⟩
          · exact Finset.disjoint_union_left.mpr ⟨hparts.mono_right h₂, hown⟩
          · rw [Finset.union_assoc]
            exact (Finset.union_subset_union Finset.Subset.rfl hsub').trans hsub

theorem Assertion.table_singleton (name : Text) :
    (word K v w).Entails (table K [(name, v)] [(name, w)]) := by
  have h := (table_nil.mul (Entails.refl (word K v w))).trans (table_insert (K := K) name)
  rwa [one_mul] at h

theorem Assertion.table_get (name : Text) :
    (table K t e).Entails
      (word K ((Table.get? t name).getD .null) ((Table.get? e name).getD .null)) := by
  rintro σ Z S ⟨-, ht⟩
  rcases ht.entry name with ⟨hget, hget'⟩ | ⟨v, w, hget, hget', hv⟩
  · rw [hget, hget']
    rfl
  · rw [hget, hget']
    exact hv

theorem Assertion.table_receiverFrame (f : Function) :
    (word K v w * words K values ws).Entails
      (table K (Env.receiverFrame f v values) (Engine.receiverFrame f w ws)) :=
  ((table_singleton selfName).mul (Entails.refl _)).trans (table_bind f.params.tail)

theorem Assertion.words_append {values' : List Value} {ws' : List Word} :
    (words K values ws * words K values' ws').Entails
      (words K (values ++ values') (ws ++ ws')) := by
  rintro σ Z S ⟨S₁, S₂, hparts, hsub, h₁, h₂⟩
  exact (h₁.append h₂ hparts).mono hsub

theorem Assertion.words_uncons :
    (words K (v :: values) (w :: ws)).Entails (word K v w * words K values ws) := by
  rintro σ Z S ⟨_, _, S₁, S₂, ⟨⟩, hparts, hsub, hv, hrest⟩
  exact ⟨S₁, S₂, hparts, hsub, hv, hrest⟩

theorem Assertion.word_shell (σ : Memory) (Z S : Finset Address) (h : (word K v w).Holds σ Z S) :
    w.shell = v.shell :=
  Depicts.shell_eq h

theorem Assertion.frozen_shell (σ : Memory) (Z S : Finset Address)
    (h : (frozen K v w).Holds σ Z S) : w.shell = v.shell :=
  Depicts.shell_eq h

theorem Assertion.frozen_allows (σ : Memory) (Z S : Finset Address)
    (h : (frozen K v w).Holds σ Z S) : v.Throughout K.Allows :=
  Depicts.allows v h

theorem Assertion.word_allows (σ : Memory) (Z S : Finset Address) (h : (word K v w).Holds σ Z S) :
    v.Throughout K.Allows :=
  Depicts.allows v h

/-- The function that a word is has only statements that may be executed. -/
theorem Charter.bodies {f : Function} (h : (Value.function f).Throughout K.Allows) :
    ∀ s ∈ f.stmts, K.Body s :=
  (Value.throughout_of_parts rfl).mp h

/-! ## Bodies -/

/-- The ways in which a body ends that go together. -/
def Assertion.flow (K : Charter) : Option Word → Flow → Assertion
  | none, .normal => 1
  | some w, .returned v => word K v w
  | _, _ => fact False

theorem Assertion.flow_value (returned : Option Word) (flow : Flow) :
    (Assertion.flow K returned flow).Entails (word K flow.value (returned.getD .null)) := by
  cases returned with
  | none =>
      cases flow with
      | normal => exact fun _ _ _ _ => rfl
      | returned v => exact fun _ _ _ h => absurd h id
  | some w =>
      cases flow with
      | normal => exact fun _ _ _ h => absurd h id
      | returned v => exact Entails.refl _

/-- Built-in functions yield only what a charter allows. -/
def Rules.Within (K : Charter) (rules : Rules) : Prop :=
  ∀ name v, Table.get? rules.natives name = some (.constant v) → v.Throughout K.Allows

/-- An engine and an environment with the same rules, in which bodies follow each other at every
level. -/
structure Engine.Mirrors (K : Charter) (g : Engine) (env : Env) : Prop where
  rules : g.rules = env.rules
  rounds : g.rounds = env.rounds
  constants : env.rules.Within K
  run (level : Nat) {stmts : List Stmt} : (∀ s ∈ stmts, K.Body s) →
    Follows K level 1 (g.run level stmts) (env.run stmts) (Assertion.flow K)

namespace Engine.Mirrors

variable {g : Engine} {env : Env} (h : g.Mirrors K env)
include h

theorem execute {f : Function} (hf : ∀ s ∈ f.stmts, K.Body s) (token : Token) :
    Follows K L (table K t e) (g.execute f e token) (env.execute f t token)
      (fun r s => word K s.1 r.1 * table K s.2 r.2) := by
  unfold Engine.execute Env.execute
  refine Follows.depth.beside fun d d' => .of_fact ?_
  rintro rfl
  rw [h.rules]
  split
  · exact .raise _ _
  · refine (Follows.inFrame fun level => h.run level hf).bind fun r s => .pure ?_
    exact (flow_value r.1 s.1).mul (Entails.refl _)

/-- Where only the result of a body matters. -/
theorem execute_result {f : Function} (hf : ∀ s ∈ f.stmts, K.Body s) (token : Token) :
    Follows K L (table K t e) (g.execute f e token >>= fun r => pure r.1)
      (env.execute f t token >>= fun s => pure s.1) (fun w v => word K v w) :=
  (h.execute hf token).bind fun _ _ => .pure mul_entails_left

theorem call {f : Function} (hf : ∀ s ∈ f.stmts, K.Body s) (token : Token) :
    Follows K L (words K values ws) (g.call f ws token) (env.call f values token)
      (fun w v => word K v w) := by
  refine (h.execute_result hf token).pre ?_
  have hframe := (table_nil.mul (Entails.refl (words K values ws))).trans (table_bind f.params)
  rwa [one_mul] at hframe

theorem callMethod {f : Function} (hf : ∀ s ∈ f.stmts, K.Body s) (token : Token) :
    Follows K L (word K v w * words K values ws) (g.callMethod f w ws token)
      (env.execute f (Env.receiverFrame f v values) token >>= fun s => pure s.1)
      (fun w v => word K v w) :=
  (h.execute_result hf token).pre (table_receiverFrame f)

theorem instantiate {init : Function} (hf : ∀ s ∈ init.stmts, K.Body s) (token : Token)
    {fields : Table Value} :
    Follows K L (frozen K (.object fields) w * words K values ws)
      (g.instantiate w init ws token) (env.instantiate fields init values token)
      (fun w v => word K v w) := by
  unfold Engine.instantiate Env.instantiate
  refine .step (Yields.copy_frozen.frame _) fun self => ?_
  refine ((h.execute hf token).pre (table_receiverFrame init)).bind fun r s => .pure ?_
  exact mul_entails_right.trans (table_get selfName)

theorem invoke {f : Option Function} (hf : ∀ f', f = some f' → ∀ s ∈ f'.stmts, K.Body s)
    (token : Token) :
    Follows K L (words K values ws) (g.invoke f ws token) (env.invoke f values token)
      (fun w v => word K v w) := by
  cases f with
  | none => exact .raise _ _
  | some f =>
      refine .learn (p := ws.length = values.length) (fun _ _ _ hws => Spread.length_eq hws) ?_
      intro hlength
      unfold Engine.invoke Env.invoke
      dsimp only
      rw [hlength]
      split
      · exact h.call (hf f rfl) token
      · exact .raise _ _

end Engine.Mirrors

/-! ## Declared functions -/

/-- What has been declared is there on both sides or on none. -/
theorem Follows.declared_cases {α β : Type} (name : Text) {f : Option Word → Exec α}
    {g : Option Value → Eval β} {Q : α → β → Assertion} (hnone : Follows K L F (f none) (g none) Q)
    (hsome : ∀ w v, w.shell = v.shell → v.Throughout K.Allows →
      Follows K L (frozen K v w * F) (f (some w)) (g (some v)) Q) :
    Follows K L F (Exec.declared? name >>= f) (Evaluation.declared? name >>= g) Q := by
  refine (Follows.declared? name).beside fun a b => ?_
  cases a with
  | none =>
      cases b with
      | none => exact hnone.pre mul_entails_right
      | some v => exact .learn (fun σ Z S hp => (mul_entails_left σ Z S hp)) False.elim
  | some w =>
      cases b with
      | none => exact .learn (fun σ Z S hp => (mul_entails_left σ Z S hp)) False.elim
      | some v =>
          refine .learn (p := w.shell = v.shell ∧ v.Throughout K.Allows) (fun σ Z S hp => ?_)
            fun hv => hsome w v hv.1 hv.2
          have hfrozen := mul_entails_left σ Z S hp
          exact ⟨frozen_shell σ Z S hfrozen, frozen_allows σ Z S hfrozen⟩

theorem Follows.declaredFunction (name : Text) :
    Follows K L 1 (Engine.declaredFunction name) (Env.declaredFunction name : Eval _)
      (fun a b => fact (a = b ∧ ∀ f, b = some f → ∀ s ∈ f.stmts, K.Body s)) := by
  refine .declared_cases name (.pure fun _ _ _ _ => ⟨rfl, by simp⟩) fun w v hshell hallows => ?_
  cases Word.like_of_shell hshell with
  | function f =>
      refine .pure fun _ _ _ _ => ⟨rfl, ?_⟩
      rintro _ ⟨⟩
      exact Charter.bodies hallows
  | _ => exact .pure fun _ _ _ _ => ⟨rfl, by simp⟩

/-! ## Texts -/

namespace Engine.Mirrors

variable {g : Engine} {env : Env}

section

variable {again : Word → Exec Text} {again' : Value → Eval Text}

mutual

theorem displayWith (h : g.Mirrors K env)
    (hagain : ∀ v w, Follows K L (word K v w) (again w) (again' v) same) (standing : Standing)
    (v : Value) (hv : v.Throughout K.Allows) :
    Follows K L 1 (g.displayWith again standing v) (env.displayWith again' standing v) same := by
  match v with
  | .array items =>
      rw [Engine.displayWith, Env.displayWith]
      refine (h.displayItems hagain items (Value.throughout_array.mp hv).2).bind fun a b => ?_
      exact .pure fun _ _ _ hab => congrArg arrayText hab
  | .object fields =>
      rw [Engine.displayWith, Env.displayWith]
      obtain ⟨-, hfields⟩ := Value.throughout_object.mp hv
      have hplain : Follows K L 1 (do return objectText (← g.displayFields again fields))
          (do return objectText (← env.displayFields again' fields)) same :=
        (h.displayFields hagain fields hfields).bind fun a b =>
          .pure fun _ _ _ hab => congrArg objectText hab
      cases hget : Table.get? fields displayKey with
      | none => exact hplain
      | some method =>
          cases method with
          | function f =>
              have hf := Charter.bodies (hfields.get? hget)
              dsimp only [Engine.callDisplay]
              rw [bind_assoc]
              refine .step (Yields.build _ hv) fun self => ?_
              rw [bind_assoc]
              refine ((h.execute hf f.token).pre (table_singleton selfName)).bind fun r s => ?_
              obtain ⟨w, final⟩ := r
              obtain ⟨v, final'⟩ := s
              refine .pre ?_ mul_entails_left
              refine .learn word_shell fun hshell => ?_
              cases Word.like_of_shell hshell with
              | string s => exact .pure fun _ _ _ _ => rfl
              | _ => exact hagain _ _
          | _ => exact hplain
  | .null | .number _ | .string _ | .boolean _ | .nameRef _ | .function _ =>
      rw [Engine.displayWith, Env.displayWith]
      exact .pure fun _ _ _ _ => rfl

theorem displayItems (h : g.Mirrors K env)
    (hagain : ∀ v w, Follows K L (word K v w) (again w) (again' v) same) (items : List Value)
    (hitems : ∀ v ∈ items, v.Throughout K.Allows) :
    Follows K L 1 (g.displayItems again items) (env.displayItems again' items) same := by
  match items with
  | [] =>
      rw [Engine.displayItems, Env.displayItems]
      exact .pure fun _ _ _ _ => rfl
  | v :: rest =>
      rw [Engine.displayItems, Env.displayItems]
      obtain ⟨hv, hrest⟩ := List.forall_mem_cons.mp hitems
      refine (h.displayWith hagain .nested v hv).bind fun a b => .learn (fun _ _ _ hab => hab) ?_
      rintro rfl
      refine ((h.displayItems hagain rest hrest).pre (entails_one _)).bind fun a' b' => ?_
      exact .pure fun _ _ _ hab => congrArg (a :: ·) hab

theorem displayFields (h : g.Mirrors K env)
    (hagain : ∀ v w, Follows K L (word K v w) (again w) (again' v) same) (fields : Table Value)
    (hfields : Table.Each (Value.Throughout K.Allows) fields) :
    Follows K L 1 (g.displayFields again fields) (env.displayFields again' fields) same := by
  match fields with
  | [] =>
      rw [Engine.displayFields, Env.displayFields]
      exact .pure fun _ _ _ _ => rfl
  | (key, v) :: rest =>
      rw [Engine.displayFields, Env.displayFields]
      obtain ⟨hv, hrest⟩ := List.forall_mem_cons.mp hfields
      refine (h.displayWith hagain .nested v hv).bind fun a b => .learn (fun _ _ _ hab => hab) ?_
      rintro rfl
      refine ((h.displayFields hagain rest hrest).pre (entails_one _)).bind fun a' b' => ?_
      exact .pure fun _ _ _ hab => congrArg ((key ++ ": " ++ a) :: ·) hab

end

end

variable (h : g.Mirrors K env)
include h

theorem displayWithin (n : Nat) (v : Value) (w : Word) :
    Follows K L (word K v w) (g.displayWithin n w) (env.displayWithin n v) same := by
  induction n generalizing v w with
  | zero => exact .exhausted
  | succ n ih =>
      refine .learn word_allows fun hallows => .step Yields.view fun v' => .of_fact ?_
      rintro rfl
      exact (h.displayWith ih .alone v' hallows).pre (entails_one _)

theorem display (v : Value) (w : Word) :
    Follows K L (word K v w) (g.display w) (env.display v) same := by
  unfold Engine.display Env.display
  rw [h.rounds]
  exact h.displayWithin _ v w

theorem displayAll :
    Follows K L (words K values ws) (g.displayAll ws) (env.displayAll values) same := by
  induction values generalizing ws with
  | nil =>
      refine .learn (p := ws = []) (fun _ _ _ hws => hws) ?_
      rintro rfl
      exact .pure fun _ _ _ _ => rfl
  | cons v values ih =>
      cases ws with
      | nil => exact .learn (p := False) (fun _ _ _ hws => by simpa using hws.length_eq) False.elim
      | cons w ws =>
          refine .pre ?_ words_uncons
          refine ((h.display v w).frame _).bind fun a b => .of_fact ?_
          rintro rfl
          refine ih.bind fun a' b' => ?_
          exact .pure fun _ _ _ hab => congrArg (a :: ·) hab

end Engine.Mirrors

/-! ## Built-in functions -/

theorem Follows.oneArgument (name : Text) (token : Token) :
    Follows K L (words K values ws) (Engine.oneArgument name ws token)
      (Env.oneArgument name values token : Eval Value) (fun w v => word K v w) := by
  refine .learn (p := ws.length = values.length) (fun _ _ _ hws => Spread.length_eq hws) ?_
  intro hlength
  by_cases hone : values.length = 1
  · obtain ⟨v, rfl⟩ := List.length_eq_one_iff.mp hone
    obtain ⟨w, rfl⟩ := List.length_eq_one_iff.mp hlength
    exact .pure (words_uncons.trans mul_entails_left)
  · have hraise : Engine.oneArgument name ws token =
        Exec.raise (.nativeArity name 1 values.length) token.location := by
      unfold Engine.oneArgument
      split
      · exact absurd hlength.symm hone
      · rw [hlength]
    have hraise' : (Env.oneArgument name values token : Eval Value) =
        Evaluation.raise (.nativeArity name 1 values.length) token.location := by
      unfold Env.oneArgument
      split
      · exact absurd rfl hone
      · rfl
    rw [hraise, hraise']
    exact .raise _ _

theorem Follows.twoArguments (name : Text) (token : Token) :
    Follows K L (words K values ws) (Engine.twoArguments name ws token)
      (Env.twoArguments name values token : Eval (Value × Value))
      (fun r s => word K s.1 r.1 * word K s.2 r.2) := by
  refine .learn (p := ws.length = values.length) (fun _ _ _ hws => Spread.length_eq hws) ?_
  intro hlength
  by_cases htwo : values.length = 2
  · obtain ⟨v, v', rfl⟩ := List.length_eq_two.mp htwo
    obtain ⟨w, w', rfl⟩ := List.length_eq_two.mp hlength
    refine .pure (words_uncons.trans ((Entails.refl _).mul ?_))
    exact words_uncons.trans mul_entails_left
  · have hraise : Engine.twoArguments name ws token =
        Exec.raise (.nativeArity name 2 values.length) token.location := by
      unfold Engine.twoArguments
      split
      · exact absurd hlength.symm htwo
      · rw [hlength]
    have hraise' : (Env.twoArguments name values token : Eval (Value × Value)) =
        Evaluation.raise (.nativeArity name 2 values.length) token.location := by
      unfold Env.twoArguments
      split
      · exact absurd rfl htwo
      · rfl
    rw [hraise, hraise']
    exact .raise _ _

/-- The items of an array can be taken out of it. -/
theorem Yields.items {a : Address} :
    Yields K (word K (.array values) (.array a)) (Exec.items a) (fun ws => words K values ws) := by
  intro c m R hs
  refine ⟨c.memory.items a, c, rfl, { hs with provides := ?_ }, rfl, .refl K c⟩
  obtain ⟨Z, S, hZ, hS, hzone, hheap, S₁, S₂, hparts, hsub, hv, hR⟩ := hs.provides
  have hitems := (Depicts.items_eq hv).2.2
  exact ⟨Z, S, hZ, hS, hzone, hheap, S₁, S₂, hparts, hsub, hitems.mono (Finset.erase_subset a S₁),
    hR⟩

theorem Yields.extended {a : Address} :
    Yields K (word K (.array values) (.array a) * word K v w) (Engine.extended a w)
      (fun w' => word K (.array (values ++ [v])) w') := by
  refine (Yields.copy.frame (word K v w)).bind fun u => ?_
  refine .pre ?_ (mul_entails_left.mul (Entails.refl _))
  refine .learn (p := ∃ b, u = .array b) (fun σ Z S hu => ?_) ?_
  · obtain ⟨b, -, hb, -⟩ := depicts_array.mp (mul_entails_left σ Z S hu)
    exact ⟨b, hb⟩
  · rintro ⟨b, rfl⟩
    rw [mul_comm]
    refine (Yields.copy.frame _).bind fun last => ?_
    refine .pre ?_ ((mul_entails_left (Q := word K v w)).mul (Entails.refl _))
    rw [mul_comm]
    refine (Yields.items.frame _).bind fun ws => ?_
    refine (Yields.array.pre ?_).bind fun b' => .pure (Entails.refl _)
    exact ((Entails.refl _).mul words_singleton).trans words_append

namespace Engine.Mirrors

variable {g : Engine} {env : Env} (h : g.Mirrors K env)
include h

theorem applyNative {native : Native}
    (hconstant : ∀ v, native = .constant v → v.Throughout K.Allows) (token : Token) :
    Follows K L (words K values ws) (g.applyNative native ws token)
      (env.applyNative native values token) (fun w v => word K v w) := by
  cases native with
  | print =>
      refine h.displayAll.bind fun a b => .learn (fun _ _ _ hab => hab) ?_
      rintro rfl
      refine ((Follows.print _).pre (entails_one _)).bind fun _ _ => ?_
      exact .pure fun _ _ _ _ => rfl
  | len =>
      refine (Follows.oneArgument "len" token).bind fun w v => .learn word_shell fun hshell => ?_
      cases Word.like_of_shell hshell with
      | array a items =>
          refine .of_yields (Yields.items.bind fun ws => ?_)
          refine .learn (fun _ _ _ hws => Spread.length_eq hws) fun hlength => ?_
          rw [hlength]
          exact .pure fun _ _ _ _ => rfl
      | string s => exact .pure fun _ _ _ _ => rfl
      | _ => exact .raise _ _
  | push =>
      refine (Follows.twoArguments "push" token).bind fun r s => ?_
      obtain ⟨w, w'⟩ := r
      obtain ⟨v, v'⟩ := s
      have hfirst (σ : Memory) (Z S : Finset Address)
          (hp : (word K v w * word K v' w').Holds σ Z S) : w.shell = v.shell :=
        word_shell σ Z S (mul_entails_left σ Z S hp)
      refine .learn hfirst fun hshell => ?_
      cases Word.like_of_shell hshell with
      | array a items => exact .of_yields Yields.extended
      | _ => exact .raise _ _
  | str =>
      refine (Follows.oneArgument "str" token).bind fun w v => ?_
      refine (h.display v w).bind fun a b => .learn (fun _ _ _ hab => hab) ?_
      rintro rfl
      exact .pure fun _ _ _ _ => rfl
  | type =>
      refine (Follows.oneArgument "type" token).bind fun w v => ?_
      refine .learn (p := w.kind = v.kind) (fun _ _ _ hv => Depicts.kind_eq hv) fun hkind => ?_
      rw [hkind]
      exact .pure fun _ _ _ _ => rfl
  | constant v =>
      exact .of_yields ((Yields.build v (hconstant v rfl)).pre (entails_one _))
  | gather =>
      exact .of_yields (Yields.array.bind fun a => .pure (Entails.refl _))
  | forward target =>
      refine (Follows.declaredFunction target).beside fun f f' => .of_fact ?_
      rintro ⟨rfl, hf⟩
      exact h.invoke hf token

end Engine.Mirrors

end

end Script
