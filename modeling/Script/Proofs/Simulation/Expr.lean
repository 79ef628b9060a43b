import Script.Proofs.Simulation.Basic

/-! # Expressions respect simulations -/

namespace Script

open Evaluation

theorem Frame.bind_each {P : Value → Prop} {frame : Frame} (hframe : Table.Each P frame)
    (params : List Text) (args : List Value) (hargs : ∀ v ∈ args, P v) :
    Table.Each P (Frame.bind frame params args) := by
  unfold Frame.bind
  induction params generalizing frame args with
  | nil => simpa using hframe
  | cons name params ih =>
      cases args with
      | nil => simpa using hframe
      | cons v args =>
          simp only [List.zip_cons_cons, List.foldl_cons]
          exact ih (hframe.insert name (hargs v (by simp))) args
            fun w hw => hargs w (List.mem_cons_of_mem _ hw)

theorem Value.getProperty_plain {v : Value} {property : Text} {c : Cause}
    (h : v.getProperty property = .error c) : ¬ c.AboutShape := by
  unfold Value.getProperty at h
  split at h
  · split at h <;> cases h
    simp
  · cases h; simp

theorem Terms.Closed.getProperty {T : Terms} (hT : T.Closed) {v w : Value} {property : Text}
    (hv : T.Good v) (h : v.getProperty property = .ok w) : T.Good w := by
  unfold Value.getProperty at h
  split at h
  · split at h
    · rename_i value hget
      cases h
      exact (hT.fields hv).get? hget
    · cases h
  · cases h

theorem Value.getItem_plain {v index : Value} {c : Cause} (h : v.getItem index = .error c) :
    ¬ c.AboutShape := by
  unfold Value.getItem at h
  cases hitem : v.item .truncated index with
  | error e =>
      simp only [hitem, bind, Except.bind] at h
      cases h
      exact Value.item_plain hitem
  | ok r => simp [hitem, bind, Except.bind, pure, Except.pure] at h

theorem Terms.Closed.getItem {T : Terms} (hT : T.Closed) {v index w : Value}
    (hv : T.Good v) (h : v.getItem index = .ok w) : T.Good w := by
  unfold Value.getItem at h
  cases hitem : v.item .truncated index with
  | error e => simp [hitem, bind, Except.bind] at h
  | ok r =>
      obtain ⟨rfl, -, hget⟩ := Value.item_ok hitem
      simp only [hitem, bind, Except.bind, pure, Except.pure, Except.ok.injEq] at h
      subst h
      exact (hT.array _).mp hv _ (List.mem_of_getElem? hget)

namespace Simulation

variable {M N : Type → Type} [Evaluation M] [Evaluation N] {S : Simulation M N}
  {env : Env M} {env' : Env N}

/-! ## Calls -/

theorem Respects.call (h : S.Respects env env') {f : Function} (hf : S.Good (.function f))
    {args : List Value} (hargs : ∀ v ∈ args, S.Good v) {token : Token} (hat : S.At token) :
    S.Holds S.Good (env.call f args token) (env'.call f args token) := by
  refine S.bind (h.execute hf (Frame.bind_each (Table.Each.nil _) _ args hargs) hat) ?_
  rintro ⟨result, final⟩ ⟨hresult, -⟩
  exact S.pure hresult

theorem Respects.receiverFrame {f : Function} {receiver : Value} (hreceiver : S.Good receiver)
    {args : List Value} (hargs : ∀ v ∈ args, S.Good v) :
    Table.Each S.Good (Env.receiverFrame f receiver args) :=
  Frame.bind_each (by simpa [Table.Each] using hreceiver) _ args hargs

theorem Respects.invoke (h : S.Respects env env') {f? : Option Function}
    (hf : ∀ f, f? = some f → S.Good (.function f)) {args : List Value}
    (hargs : ∀ v ∈ args, S.Good v) {token : Token} (hat : S.At token) :
    S.Holds S.Good (env.invoke f? args token) (env'.invoke f? args token) := by
  cases f? with
  | none => exact S.raise (hat _ (by simp))
  | some f =>
      simp only [Env.invoke]
      split
      · exact h.call (hf f rfl) hargs hat
      · exact S.raise (hat _ (by simp))

theorem declaredFunction (name : Text) :
    S.Holds (fun f? => ∀ f, f? = some f → S.Good (.function f))
      (Env.declaredFunction name) (Env.declaredFunction name) := by
  refine S.bind (S.declared? name) fun found hfound => ?_
  split
  · rename_i f
    exact S.pure fun g hg => by cases hg; exact hfound _ rfl
  · exact S.pure (by simp)

/-! ## Built-in functions -/

theorem Respects.displayAll (h : S.Respects env env') {args : List Value}
    (hargs : ∀ v ∈ args, S.Good v) :
    S.Holds (fun _ => True) (env.displayAll args) (env'.displayAll args) := by
  induction args with
  | nil => exact S.pure trivial
  | cons v rest ih =>
      refine S.bind (h.display (hargs v (by simp))) fun text _ => ?_
      exact S.bind (ih fun w hw => hargs w (List.mem_cons_of_mem _ hw)) fun _ _ => S.pure trivial

theorem oneArgument (name : Text) {args : List Value} (hargs : ∀ v ∈ args, S.Good v)
    {token : Token} (hat : S.At token) :
    S.Holds S.Good (Env.oneArgument name args token) (Env.oneArgument name args token) := by
  unfold Env.oneArgument
  split
  · exact S.pure (hargs _ (by simp))
  · exact S.raise (hat _ (by simp))

theorem twoArguments (name : Text) {args : List Value} (hargs : ∀ v ∈ args, S.Good v)
    {token : Token} (hat : S.At token) :
    S.Holds (fun r => S.Good r.1 ∧ S.Good r.2) (Env.twoArguments name args token)
      (Env.twoArguments name args token) := by
  unfold Env.twoArguments
  split
  · exact S.pure ⟨hargs _ (by simp), hargs _ (by simp)⟩
  · exact S.raise (hat _ (by simp))

theorem Respects.applyNative (h : S.Respects env env') {n : Native}
    (hn : ∀ v, n = .constant v → S.Good v) {args : List Value} (hargs : ∀ v ∈ args, S.Good v)
    {token : Token} (hat : S.At token) :
    S.Holds S.Good (env.applyNative n args token) (env'.applyNative n args token) := by
  cases n with
  | print =>
      refine S.bind (h.displayAll hargs) fun texts _ => ?_
      exact S.bind (S.print _) fun _ _ => S.pure S.closed.null
  | len =>
      refine S.bind (oneArgument _ hargs hat) fun v _ => ?_
      split
      · exact S.pure (S.closed.number _)
      · exact S.pure (S.closed.number _)
      · exact S.raise (hat _ (by simp))
  | push =>
      refine S.bind (twoArguments _ hargs hat) fun r hr => ?_
      obtain ⟨v, w⟩ := r
      obtain ⟨hv, hw⟩ := hr
      cases v with
      | array items =>
          refine S.pure ((S.closed.array _).mpr fun u hu => ?_)
          rcases List.mem_append.mp hu with hu | hu
          · exact (S.closed.array items).mp hv u hu
          · rwa [List.mem_singleton.mp hu]
      | _ => exact S.raise (hat _ (by simp))
  | str =>
      refine S.bind (oneArgument _ hargs hat) fun v hv => ?_
      exact S.bind (h.display hv) fun text _ => S.pure (S.closed.string _)
  | type => exact S.bind (oneArgument _ hargs hat) fun v _ => S.pure (S.closed.string _)
  | constant v => exact S.pure (hn v rfl)
  | gather => exact S.pure ((S.closed.array args).mpr hargs)
  | forward target => exact S.bind (declaredFunction target) fun f? hf => h.invoke hf hargs hat

/-! ## Operators -/

theorem Respects.arithmetic (h : S.Respects env env') (op : Number → Number → Number)
    (left : Value) {right : Value} (hright : S.Good right) :
    S.Holds S.Good (env.arithmetic op left right) (env'.arithmetic op left right) := by
  cases left with
  | string s => exact S.bind (h.display hright) fun text _ => S.pure (S.closed.string _)
  | _ => exact S.pure (S.closed.number _)

/-- No operator is left to be refused. -/
theorem Respects.applyBinary (h : S.Respects env env') (op : BinaryOp) (left : Value)
    {right : Value} (hright : S.Good right) (token : Token) :
    S.Holds S.Good (env.applyBinary op left right token)
      (env'.applyBinary op left right token) := by
  cases op with
  | add | subtract | multiply | divide => exact h.arithmetic _ left hright
  | equal | notEqual => exact S.pure (S.closed.boolean _)
  | less | lessEqual | greater | greaterEqual =>
      simp only [Env.applyBinary, BinaryOp.arithmetic?, BinaryOp.orders?, reduceCtorEq, if_false]
      cases left.compare? right with
      | none => exact S.pure (S.closed.boolean _)
      | some order => exact S.pure (S.closed.boolean _)

/-! ## What is called -/

/-- A built-in function of an environment, or a good function. -/
def GoodCallee (S : Simulation M N) (env : Env M) : Env.Callee → Prop
  | .native n => ∃ name, Table.get? env.rules.natives name = some n
  | .declared f => S.Good (.function f)

theorem Respects.callee (h : S.Respects env env') (name : Text) (count : Nat) {token : Token}
    (hat : S.At token) :
    S.Holds (GoodCallee S env) (env.callee name count token) (env'.callee name count token) := by
  unfold Env.callee
  rw [h.natives]
  cases hn : Table.get? env.rules.natives name with
  | some n => exact S.pure ⟨name, hn⟩
  | none =>
      refine S.bind (S.declared? name) fun found hfound => ?_
      cases found with
      | none => exact S.raise (hat _ (by simp))
      | some v =>
          cases v with
          | function f =>
              dsimp only
              split
              · exact S.pure (hfound _ rfl)
              · exact S.raise (hat _ (by simp))
          | _ => exact S.raise (hat _ (by simp))

theorem Respects.enter (h : S.Respects env env') {callee : Env.Callee}
    (hcallee : GoodCallee S env callee) {args : List Value} (hargs : ∀ v ∈ args, S.Good v)
    {token : Token} (hat : S.At token) :
    S.Holds S.Good (env.enter callee args token) (env'.enter callee args token) := by
  cases callee with
  | native n =>
      obtain ⟨name, hname⟩ := hcallee
      exact h.applyNative (fun v hv => h.constants name v (hv ▸ hname)) hargs hat
  | declared f => exact h.call hcallee hargs hat

theorem method {receiver : Value} (hreceiver : S.Good receiver) (name : Text) (count : Nat)
    {token : Token} (hat : S.At token) :
    S.Holds (fun f => S.Good (.function f)) (Env.method receiver name count token)
      (Env.method receiver name count token) := by
  unfold Env.method
  cases receiver with
  | object fields =>
      dsimp only
      cases hget : Table.get? fields name with
      | none => exact S.raise (hat _ (by simp))
      | some v =>
          cases v with
          | function f =>
              dsimp only
              split_ifs
              · exact S.raise (hat _ (by simp))
              · exact S.pure ((S.closed.fields hreceiver).get? hget)
              · exact S.raise (hat _ (by simp))
          | _ => exact S.raise (hat _ (by simp))
  | _ => exact S.raise (hat _ (by simp))

theorem template (name : Text) (count : Nat) {token : Token} (hat : S.At token) :
    S.Holds (fun r => S.Good (.object r.1) ∧ ∀ f, r.2 = some f → S.Good (.function f))
      (Env.template name count token) (Env.template name count token) := by
  refine S.bind (S.declared? name) fun found hfound => ?_
  cases found with
  | none => exact S.raise (hat _ (by simp))
  | some v =>
      cases v with
      | object fields =>
          have hfields : S.Good (.object fields) := hfound _ rfl
          dsimp only
          cases hget : Table.get? fields initKey with
          | none => exact S.pure ⟨hfields, by simp⟩
          | some v =>
              cases v with
              | function f =>
                  dsimp only
                  split_ifs
                  · exact S.raise (hat _ (by simp))
                  · refine S.pure ⟨hfields, fun g hg => ?_⟩
                    cases hg
                    exact (S.closed.fields hfields).get? hget
                  · exact S.raise (hat _ (by simp))
              | _ => exact S.pure ⟨hfields, by simp⟩
      | _ => exact S.raise (hat _ (by simp))

theorem Respects.instantiate (h : S.Respects env env') {fields : Table Value}
    (hfields : S.Good (.object fields)) {init : Function} (hinit : S.Good (.function init))
    {args : List Value} (hargs : ∀ v ∈ args, S.Good v) {token : Token} (hat : S.At token) :
    S.Holds S.Good (env.instantiate fields init args token)
      (env'.instantiate fields init args token) := by
  refine S.bind (h.execute hinit (Respects.receiverFrame hfields hargs) hat) ?_
  rintro ⟨result, final⟩ ⟨-, hfinal⟩
  refine S.pure ?_
  cases hget : Table.get? final selfName with
  | none => exact S.closed.null
  | some v => exact hfinal.get? hget

/-! ## Trees -/

mutual

theorem Respects.evalExpr (h : S.Respects env env') (e : Expr) (he : e.Fits S.toTerms) :
    S.Holds S.Good (env.evalExpr e) (env'.evalExpr e) := by
  match e with
  | .hole => exact S.pure S.closed.null
  | .number x _ => exact S.pure (S.closed.number x)
  | .string s _ => exact S.pure (S.closed.string s)
  | .boolean b _ => exact S.pure (S.closed.boolean b)
  | .null _ => exact S.pure S.closed.null
  | .ident name _ => exact S.read name
  | .negate operand t =>
      simp only [Expr.Fits, Expr.parts, List.forall_mem_cons] at he
      simp only [Env.evalExpr]
      refine S.bind (Respects.evalExpr h operand he.2) fun v hv => ?_
      exact S.bind (S.resolve hv) fun w _ => S.pure (S.closed.number _)
  | .binary op left right t =>
      simp only [Expr.Fits, Expr.parts, List.forall_mem_cons, List.forall_mem_append] at he
      simp only [Env.evalExpr]
      refine S.bind (Respects.evalExpr h left he.2.1) fun l hl => ?_
      refine S.bind (S.resolve hl) fun l _ => ?_
      refine S.bind (Respects.evalExpr h right he.2.2) fun r hr => ?_
      exact S.bind (S.resolve hr) fun r hr => h.applyBinary op l hr t
  | .assign target value t =>
      simp only [Expr.Fits, Expr.parts, List.forall_mem_cons, List.forall_mem_append] at he
      obtain ⟨⟨hat, hplace⟩, htarget, hvalue⟩ := he
      simp only [Env.evalExpr]
      refine S.bind (Respects.evalExpr h value hvalue) fun new hnew => ?_
      cases hp : target.place t with
      | whole name =>
          simp only [hp] at hplace
          exact S.bind (S.assign hplace hnew) fun _ _ => S.pure hnew
      | inside name rootToken =>
          simp only [hp] at hplace
          obtain ⟨hroot, hne⟩ := Expr.root_of_inside hp
          refine S.bind (Respects.evalSteps h target htarget) fun steps hsteps => ?_
          -- no steps would mean that the target is a variable as a whole
          have hnil : steps ≠ [] := fun hnil => hne (hsteps.2 hnil)
          have hpass : S.Passable steps := by
            intro step hstep
            obtain ⟨hstepAt, hkeys⟩ := hsteps.1 step hstep
            exact ⟨hstepAt, fun key t heq => hplace.2 key (hkeys key t heq)⟩
          have hrootAt : S.At rootToken := by
            simpa [hroot, Expr.Fit, Expr.token] using htarget _ target.root_mem_parts
          exact S.bind (S.update hplace.1 hnil hpass hnew hrootAt) fun _ _ => S.pure hnew
      | nowhere location =>
          simp only [hp] at hplace
          exact S.raise hplace
  | .call callee args t =>
      simp only [Expr.Fits, Expr.parts, List.forall_mem_cons, List.forall_mem_append] at he
      obtain ⟨⟨hat, hcallee⟩, -, hargs⟩ := he
      simp only [Env.evalExpr]
      cases hname : callee.name? with
      | none => exact S.raise (hcallee hname)
      | some name =>
          refine S.bind (h.callee name args.length hat) fun callee hcallee => ?_
          have hall := Respects.evalAll h args (Expr.forall_partsAll.mp hargs)
          refine S.bind hall fun values hvalues => ?_
          exact h.enter hcallee hvalues hat
  | .method object name args t =>
      simp only [Expr.Fits, Expr.parts, List.forall_mem_cons, List.forall_mem_append] at he
      obtain ⟨hat, hobject, hargs⟩ := he
      simp only [Env.evalExpr]
      refine S.bind (Respects.evalExpr h object hobject) fun v hv => ?_
      refine S.bind (S.resolve hv) fun receiver hreceiver => ?_
      refine S.bind (method hreceiver name args.length hat) fun f hf => ?_
      have hall := Expr.forall_partsAll.mp hargs
      refine S.bind (Respects.evalAll h args hall) fun values hvalues => ?_
      refine S.bind (h.execute hf (Respects.receiverFrame hreceiver hvalues) hat) ?_
      rintro ⟨result, final⟩ ⟨hresult, -⟩
      exact S.pure hresult
  | .member object property t =>
      simp only [Expr.Fits, Expr.parts, List.forall_mem_cons] at he
      obtain ⟨hat, hobject⟩ := he
      have hget : ∀ v, S.Good v → S.Holds S.Good
          (Evaluation.ofExcept (M := M) t.location (v.getProperty property))
          (Evaluation.ofExcept (M := N) t.location (v.getProperty property)) := fun v hv =>
        S.ofExcept (fun w => S.closed.getProperty hv) fun c hc => hat c (Value.getProperty_plain hc)
      simp only [Env.evalExpr]
      cases hname : object.name? with
      | some name => exact S.bind (S.read name) fun v hv => hget v hv
      | none => exact S.bind (Respects.evalExpr h object hobject) fun v hv => hget v hv
  | .index object position t =>
      simp only [Expr.Fits, Expr.parts, List.forall_mem_cons, List.forall_mem_append] at he
      obtain ⟨hat, hobject, hposition⟩ := he
      have hget : ∀ v i, S.Good v → S.Holds S.Good
          (Evaluation.ofExcept (M := M) t.location (v.getItem i))
          (Evaluation.ofExcept (M := N) t.location (v.getItem i)) := fun v i hv =>
        S.ofExcept (fun w => S.closed.getItem hv) fun c hc => hat c (Value.getItem_plain hc)
      simp only [Env.evalExpr]
      cases hname : object.name? with
      | some name =>
          refine S.bind (Respects.evalExpr h position hposition) fun i hi => ?_
          refine S.bind (S.resolve hi) fun i _ => ?_
          exact S.bind (S.read name) fun v hv => hget v i hv
      | none =>
          refine S.bind (Respects.evalExpr h object hobject) fun v hv => ?_
          refine S.bind (Respects.evalExpr h position hposition) fun i hi => ?_
          exact S.bind (S.resolve hi) fun i _ => hget v i hv
  | .array items t =>
      simp only [Expr.Fits, Expr.parts, List.forall_mem_cons] at he
      simp only [Env.evalExpr]
      have hall := Expr.forall_partsAll.mp he.2
      refine S.bind (Respects.evalAll h items hall) fun values hvalues => ?_
      exact S.pure ((S.closed.array values).mpr hvalues)
  | .construct name args t =>
      simp only [Expr.Fits, Expr.parts, List.forall_mem_cons] at he
      obtain ⟨hat, hargs⟩ := he
      simp only [Env.evalExpr]
      refine S.bind (template name args.length hat) ?_
      rintro ⟨fields, init?⟩ ⟨hfields, hinit⟩
      cases init? with
      | none => exact S.pure hfields
      | some init =>
          have hall := Respects.evalAll h args (Expr.forall_partsAll.mp hargs)
          refine S.bind hall fun values hvalues => ?_
          exact h.instantiate hfields (hinit init rfl) hvalues hat

theorem Respects.evalAll (h : S.Respects env env') (es : List Expr)
    (hes : ∀ e ∈ es, e.Fits S.toTerms) :
    S.Holds (fun vs => ∀ v ∈ vs, S.Good v) (env.evalAll es) (env'.evalAll es) := by
  match es with
  | [] => exact S.pure (by simp)
  | e :: rest =>
      simp only [Env.evalAll]
      refine S.bind (Respects.evalExpr h e (hes e (by simp))) fun v hv => ?_
      refine S.bind (S.resolve hv) fun v hv => ?_
      have hrest : ∀ e ∈ rest, e.Fits S.toTerms := fun e he => hes e (List.mem_cons_of_mem _ he)
      refine S.bind (Respects.evalAll h rest hrest) fun vs hvs => S.pure ?_
      exact List.forall_mem_cons.mpr ⟨hv, hvs⟩

theorem Respects.evalSteps (h : S.Respects env env') (e : Expr) (he : e.Fits S.toTerms) :
    S.Holds (fun steps => (∀ step ∈ steps, S.At step.token ∧
          ∀ key t, step = .property key t → key ∈ e.chainKeys) ∧ (steps = [] → e.root = e))
      (env.evalSteps e) (env'.evalSteps e) := by
  match e with
  | .index object position t =>
      simp only [Expr.Fits, Expr.parts, List.forall_mem_cons, List.forall_mem_append] at he
      obtain ⟨hat, hobject, hposition⟩ := he
      simp only [Env.evalSteps]
      refine S.bind (Respects.evalSteps h object hobject) fun steps hsteps => ?_
      refine S.bind (Respects.evalExpr h position hposition) fun i hi => ?_
      refine S.bind (S.resolve hi) fun i _ => S.pure ⟨?_, by simp⟩
      intro step hstep
      rcases List.mem_append.mp hstep with hstep | hstep
      · simpa [Expr.chainKeys] using hsteps.1 step hstep
      · obtain rfl := List.mem_singleton.mp hstep
        exact ⟨hat, by simp⟩
  | .member object property t =>
      simp only [Expr.Fits, Expr.parts, List.forall_mem_cons] at he
      obtain ⟨hat, hobject⟩ := he
      simp only [Env.evalSteps]
      refine S.bind (Respects.evalSteps h object hobject) fun steps hsteps => S.pure ⟨?_, by simp⟩
      intro step hstep
      rcases List.mem_append.mp hstep with hstep | hstep
      · obtain ⟨hstepAt, hkeys⟩ := hsteps.1 step hstep
        exact ⟨hstepAt, fun key t heq => List.mem_cons_of_mem _ (hkeys key t heq)⟩
      · obtain rfl := List.mem_singleton.mp hstep
        refine ⟨hat, fun key t heq => ?_⟩
        cases heq
        simp [Expr.chainKeys]
  | .hole | .number .. | .string .. | .boolean .. | .null .. | .ident .. | .negate .. | .binary ..
  | .assign .. | .call .. | .method .. | .array .. | .construct .. =>
      exact S.pure ⟨by simp, by simp [Expr.root]⟩

end

end Simulation

end Script
