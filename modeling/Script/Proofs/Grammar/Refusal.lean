import Script.Proofs.Grammar.Course

/-!
# The first token that cannot be right

Every parser has its course on the lists that its count is large enough for: one lemma for each,
from single operands up to programs. An expression can always be finished with a name, and a
statement with an expression, so whatever a list has opened can be closed again.

`refused_at_first_wrong_token` draws the conclusion for programs. The token that an error points at
spoils every list that begins with it and the tokens before it, and those before it begin a program.
-/

namespace Script

open Grammar

namespace Parser

variable {ι : Type}

/-- Larger counts than `n + 1` are successors of larger counts than `n`. -/
theorem exists_succ {n : Nat} {m : ι → Nat} (h : ∀ i, n < m i) :
    ∃ m' : ι → Nat, m = (fun i => m' i + 1) ∧ ∀ i, n ≤ m' i := by
  refine ⟨fun i => m i - 1, funext fun i => ?_, fun i => ?_⟩
  · exact (Nat.sub_add_cancel (Nat.one_le_of_lt (h i))).symm
  · exact Nat.le_sub_one_of_lt (h i)

/-! ## Expressions -/

/-- A name, which is enough of an expression anywhere. -/
def anyName : Token := { kind := .identifier }

/-- The tokens that carry no expression on. -/
def Settled (kind : Token.Kind) : Prop :=
  kind.joint = none

section

variable {whole : Parser Expr} {whole' : ι → Parser Expr} {bound : Nat}
  (hwhole : Viable whole whole' (· = .identifier) Settled true bound)
include hwhole

theorem items_viable (closing : Token.Kind) (hclosing : Settled closing)
    (hcomma : closing ≠ .comma) {n : Nat} {m : ι → Nat} (hn : bound ≤ n) (hnm : ∀ i, n < m i) :
    Viable (items whole closing n) (fun i => items (whole' i) closing (m i)) (· = closing)
      (· = closing) false bound := by
  induction n generalizing m bound with
  | zero =>
    obtain rfl : bound = 0 := by omega
    obtain ⟨m, rfl, -⟩ := exists_succ hnm
    refine viable_of_stays [] fun i t v ht => ?_
    rw [items, peek_bind, if_pos ht]
    rfl
  | succ n ih =>
    obtain ⟨m, rfl, hless⟩ := exists_succ hnm
    refine viable_until (fun t ht => ⟨if_pos ht, fun _ => if_pos ht⟩) (fun _ h => h) ?_
    intro t v ht hended hlength
    have hlater := ih (hwhole.shorten (by omega : bound - 1 ≤ bound)) (by omega) hless
    simp only [if_neg ht]
    refine (?_ : Viable _ _ (· = .identifier) _ _ _).course _ hended hlength
    apply hwhole.bind
    · intro item
      apply (viable_accept (· = closing) (by decide) hcomma.symm).bind
      · intro more
        cases more with
        | true => exact hlater.bind (fun _ => viable_pure _ fun _ h => h) fun _ h => h
        | false => exact viable_pure _ fun _ h => h
      · exact fun _ h => h
    · exact fun _ h => h ▸ hclosing

theorem arguments_viable {n : Nat} {m : ι → Nat} (hn : bound ≤ n) (hnm : ∀ i, n < m i) :
    Viable (arguments whole n) (fun i => arguments (whole' i) (m i)) (· = .closeParen)
      (fun _ => True) true bound :=
  (items_viable hwhole .closeParen rfl (by decide) hn hnm).closed rfl (by decide) (by decide) _

/-- Only an identifier is needed to begin an operand and to end it. -/
theorem primary_viable {n : Nat} {m : ι → Nat} (hn : bound ≤ n) (hnm : ∀ i, n < m i) :
    Viable (primary whole n) (fun i => primary (whole' i) (m i)) (· = .identifier) (fun _ => True)
      true (bound + 1) := by
  refine viable_choice ⟨[anyName], _, fun t v _ => ⟨⟨_, _, rfl, rfl⟩, fun _ => rfl⟩⟩ ?_
  intro t v hended hlength
  have hv : v.length ≤ bound := Nat.le_of_succ_le_succ hlength
  have harguments := arguments_viable hwhole hn hnm
  cases hkind : t.kind with
  | number | string | boolean | null | identifier =>
    apply course_advance (by simp [hkind]) hended hv
    exact viable_pure _ fun _ h => h
  | openBracket =>
    apply course_advance (by simp [hkind]) hended hv
    have hitems := items_viable hwhole .closeBracket rfl (by decide) hn hnm
    exact hitems.closed rfl (by decide) (by decide) _
  | openParen =>
    apply course_advance (by simp [hkind]) hended hv
    exact hwhole.closed (by rfl) (by decide) (by decide) _
  | newWord =>
    apply course_advance (by simp [hkind]) hended hv
    apply viable_after (by decide) (by decide)
    intro name
    apply viable_after (by decide) (by simp)
    exact fun _ => (harguments.shorten (by omega)).map _
  | _ => exact course_refuse (by simp)

/-- The tokens that call, access or index what stands before them. -/
def Suffix (kind : Token.Kind) : Prop :=
  kind = .openParen ∨ kind = .dot ∨ kind = .openBracket

theorem suffixes_viable {n : Nat} {m : ι → Nat} (hn : bound ≤ n) (hnm : ∀ i, n < m i) (e : Expr) :
    Viable (suffixes whole n e) (fun i => suffixes (whole' i) (m i) e) Settled Settled false
      bound := by
  induction n generalizing m bound e with
  | zero =>
    obtain rfl : bound = 0 := by omega
    obtain ⟨m, rfl, -⟩ := exists_succ hnm
    exact viable_of_stays e fun i t v ht => suffixes_of_stops (stops_cons ht)
  | succ n ih =>
    obtain ⟨m, rfl, hless⟩ := exists_succ hnm
    apply viable_until
    case stop => exact fun kind => ¬ Suffix kind
    · intro t ht
      cases hkind : t.kind <;> first | exact ⟨rfl, fun _ => rfl⟩ | simp [hkind, Suffix] at ht
    · intro kind hkind
      rintro (rfl | rfl | rfl) <;> cases hkind
    · intro t v ht hended hlength
      have hv : v.length ≤ bound - 1 := Nat.le_sub_one_of_lt hlength
      have hshorter := hwhole.shorten (by omega : bound - 1 ≤ bound)
      have harguments := arguments_viable hshorter (by omega) hless
      have hlater e := ih hshorter (by omega) hless e
      rcases not_not.mp ht with hkind | hkind | hkind
      · simp only [hkind]
        apply course_advance (by simp [hkind]) hended hv
        apply harguments.bind
        · exact fun _ => (hlater _).shorten (by omega)
        · exact fun _ _ => trivial
      · simp only [hkind]
        apply course_advance (by simp [hkind]) hended hv
        apply viable_after (by decide) (by decide)
        intro property
        apply (viable_accept Settled (by decide) (by simp [Settled, Token.Kind.joint])).bind
        · intro called
          cases called with
          | true =>
            have hcall := (harguments.shorten (Nat.sub_le _ 1)).bind (fun args =>
              (hlater (.method e property.value args property)).shorten (by omega))
              fun _ _ => trivial
            exact hcall.widen (fun _ h => h ▸ rfl) fun _ h => h
          | false => exact (hlater _).shorten (by omega)
        · exact fun _ h => h
      · simp only [hkind]
        apply course_advance (by simp [hkind]) hended hv
        apply hshorter.bind
        · intro position
          apply viable_after (by decide) (by decide)
          exact fun _ => (hlater _).shorten (by omega)
        · rintro _ rfl
          rfl

theorem operand_viable {n : Nat} {m : ι → Nat} (hn : bound < n) (hnm : ∀ i, n < m i) :
    Viable (operand whole n) (fun i => operand (whole' i) (m i)) (· = .identifier) Settled true
      (bound + 1) := by
  apply (primary_viable hwhole (by omega) hnm).bind
  · exact fun e => suffixes_viable hwhole (by omega) hnm e
  · exact fun _ _ => trivial

theorem unary_viable {n k : Nat} {m l : ι → Nat} (hn : bound < n) (hnm : ∀ i, n < m i)
    (hk : bound < k) (hkl : ∀ i, k < l i) :
    Viable (unary whole n k) (fun i => unary (whole' i) (m i) (l i)) (· = .identifier) Settled true
      (bound + 1) := by
  induction k generalizing l bound with
  | zero => omega
  | succ k ih =>
    obtain ⟨l, rfl, hless⟩ := exists_succ hkl
    have hoperand := operand_viable hwhole hn hnm
    refine viable_choice (hoperand.completes.peek ?_) ?_
    · exact fun t ht i => if_neg (by simp [ht])
    · intro t v hended hlength
      by_cases ht : t.kind = .minus
      · simp only [if_pos ht]
        -- With no room behind the sign there would be no end of the input.
        cases bound with
        | zero =>
          have hv : v = [] := by simpa using hlength
          exact absurd hv (hended.rest (w := [t]) (by simp [ht])).ne_nil
        | succ bound =>
          apply course_advance (by simp [ht]) hended (Nat.le_of_succ_le_succ hlength)
          exact (ih (hwhole.shorten (Nat.le_succ _)) (by omega) (by omega) hless).map _
      · simp only [if_neg ht]
        exact hoperand.course _ hended hlength

end

section

variable {part : Parser Expr} {part' : ι → Parser Expr} {bound : Nat}
  (hpart : Viable part part' (· = .identifier) Settled true bound)
include hpart

theorem chain_viable {operators : Operators}
    (hoperators : ∀ kind, Settled kind → operators kind = none)
    (hend : operators .endOfInput = none) {n : Nat} {m : ι → Nat}
    (hn : bound ≤ n) (hnm : ∀ i, n < m i) (left : Expr) :
    Viable (chain operators part n left) (fun i => chain operators (part' i) (m i) left) Settled
      Settled false bound := by
  induction n generalizing m bound left with
  | zero =>
    obtain rfl : bound = 0 := by omega
    obtain ⟨m, rfl, -⟩ := exists_succ hnm
    refine viable_of_stays left fun i t v ht => ?_
    simp only [chain, peek_bind, hoperators _ ht]
    rfl
  | succ n ih =>
    obtain ⟨m, rfl, hless⟩ := exists_succ hnm
    apply viable_until
    case stop => exact fun kind => operators kind = none
    · intro t ht
      simp only [ht]
      exact ⟨rfl, fun _ => rfl⟩
    · exact hoperators
    · intro t v ht hended hlength
      have hv : v.length ≤ bound - 1 := Nat.le_sub_one_of_lt hlength
      have hshorter := hpart.shorten (by omega : bound - 1 ≤ bound)
      have hlater e := ih hshorter (by omega) hless e
      obtain ⟨op, hop⟩ := Option.ne_none_iff_exists'.mp ht
      have hkind : t.kind ≠ .endOfInput := fun h => ht (h ▸ hend)
      simp only [hop]
      apply course_advance hkind hended hv
      apply hshorter.bind
      · exact fun right => (hlater (.binary op left right t)).shorten (by omega)
      · exact fun _ h => h

theorem joined_viable {operators : Operators}
    (hoperators : ∀ kind, Settled kind → operators kind = none) {n : Nat} {m : ι → Nat}
    (hn : bound ≤ n) (hnm : ∀ i, n < m i) :
    Viable (joined operators part n) (fun i => joined operators (part' i) (m i)) (· = .identifier)
      Settled true bound := by
  apply hpart.bind
  · exact fun left => (chain_viable hpart hoperators (hoperators _ rfl) hn hnm left).shorten
      (Nat.sub_le _ _)
  · exact fun _ h => h

end

theorem levelOperators_of_settled (level : Level) {kind : Token.Kind} (h : Settled kind) :
    levelOperators level kind = none := by
  rw [Option.eq_none_iff_forall_ne_some]
  intro op hop
  obtain ⟨rfl, -⟩ := levelOperators_eq_some.mp hop
  rw [Settled, BinaryOp.joint_kind] at h
  cases h

theorem equality_viable {whole : Parser Expr} {whole' : ι → Parser Expr} {bound : Nat}
    (hwhole : Viable whole whole' (· = .identifier) Settled true bound) {n : Nat} {m : ι → Nat}
    (hn : bound < n) (hnm : ∀ i, n < m i) :
    Viable (equality whole n) (fun i => equality (whole' i) (m i)) (· = .identifier) Settled true
      (bound + 1) := by
  have hunary := unary_viable hwhole hn hnm hn hnm
  have hfactors := joined_viable hunary (fun _ => levelOperators_of_settled .multiplicative) hn hnm
  have hterms := joined_viable hfactors (fun _ => levelOperators_of_settled .additive) hn hnm
  have horders := joined_viable hterms (fun _ => levelOperators_of_settled .comparison) hn hnm
  exact joined_viable horders (fun _ => levelOperators_of_settled .equality) hn hnm

/-- The target of an assignment is judged when its sign is the next token. -/
theorem assignment_viable {whole : Parser Expr} {whole' : ι → Parser Expr} {bound : Nat}
    (hwhole : Viable whole whole' (· = .identifier) Settled true bound) {n : Nat} {m : ι → Nat}
    (hn : bound < n) (hnm : ∀ i, n < m i) :
    Viable (assignment whole n) (fun i => assignment (whole' i) (m i)) (· = .identifier) Settled
      true (bound + 1) := by
  apply (equality_viable hwhole hn hnm).bind
  · intro left
    apply viable_until
    case stop => exact (· ≠ .assign)
    · exact fun t ht => ⟨if_neg ht, fun _ => if_neg ht⟩
    · rintro _ hkind rfl
      cases hkind
    · intro t v ht hended hlength
      have hkind := not_not.mp ht
      simp only [if_pos hkind]
      by_cases htarget : left.isTarget = true
      · simp only [if_pos htarget]
        apply course_advance (by simp [hkind]) hended (Nat.le_of_succ_le hlength : _ ≤ bound)
        exact hwhole.map _
      · simp only [if_neg htarget]
        exact course_refuse (by simp)
  · exact fun _ h => h

theorem expression_anyName {n : Nat} (hn : 2 ≤ n) {t : Token} (ht : Settled t.kind)
    (v : List Token) : expression n (anyName :: t :: v) = .ok (.ident [] anyName, t :: v) := by
  have hname : Expression .assignment [anyName] (.ident [] anyName) :=
    Expression.loosen (.ident rfl) (by decide : _ ≤ Level.primary.rank)
  exact expression_complete hname hn (stops_cons ht)

theorem expression_completes {m : ι → Nat} (hm : ∀ i, 2 ≤ m i) :
    Completes (fun i => expression (m i)) (· = .identifier) Settled :=
  ⟨[anyName], .ident [] anyName, fun t v ht =>
    ⟨⟨anyName, t :: v, rfl, rfl⟩, fun i => expression_anyName (hm i) ht v⟩⟩

theorem expression_viable {n : Nat} {m : ι → Nat} (hnm : ∀ i, n + 1 < m i) :
    Viable (expression n) (fun i => expression (m i)) (· = .identifier) Settled true (n - 1) := by
  induction n generalizing m with
  | zero => exact viable_of_completes (expression_completes hnm)
  | succ n ih =>
    have hcompletes : Completes (fun i => expression (m i)) (· = .identifier) Settled :=
      expression_completes fun i => (Nat.le_add_left 2 _).trans (hnm i)
    cases n with
    | zero => exact viable_of_completes hcompletes
    | succ n =>
      obtain ⟨m, rfl, hless⟩ := exists_succ hnm
      exact assignment_viable (ih hless) (Nat.lt_succ_self n) fun i => Nat.lt_of_succ_lt (hless i)

/-! ## Statements in a row -/

section

variable {bound : Nat}

theorem row_viable {loop : Nat → Parser (List Stmt)} {loop' : ι → Nat → Parser (List Stmt)}
    {closes : Token.Kind → Prop} [DecidablePred closes] {part : Token → Parser Stmt}
    {part' : ι → Token → Parser Stmt} (hloop : ∀ n, loop (n + 1) = row closes part (loop n))
    (hloop' : ∀ i n, loop' i (n + 1) = row closes (part' i) (loop' i n)) {closing : Token.Kind}
    (hcloses : closes closing) (hclosing : Closing closing)
    (hpart : ∀ t v, ¬ closes t.kind → Ended (t :: v) → (t :: v).length ≤ bound →
      Course (part t) (fun i => part' i t) Closing true (t :: v)) {n : Nat} {m : ι → Nat}
    (hn : bound ≤ n) (hnm : ∀ i, n < m i) :
    Viable (loop n) (fun i => loop' i (m i)) (· = closing) (· = closing) false bound := by
  have hsemicolon : closing ≠ .semicolon := by rcases hclosing with h | h <;> simp [h]
  induction n generalizing m bound with
  | zero =>
    obtain rfl : bound = 0 := by omega
    obtain ⟨m, rfl, -⟩ := exists_succ hnm
    simp only [hloop']
    exact viable_of_stays [] fun i t v ht => row_close (ht ▸ hcloses) (ht ▸ hsemicolon)
  | succ n ih =>
    obtain ⟨m, rfl, hless⟩ := exists_succ hnm
    have hlater : Viable (loop n) (fun i => loop' i (m i)) (· = closing) (· = closing) false
        (bound - 1) :=
      ih (fun t v ht hended hlength => hpart t v ht hended (by omega)) (by omega) hless
    simp only [hloop, hloop']
    apply (viable_skipSemicolons (· = closing) hsemicolon.symm).bind
    · intro _
      apply viable_until
      case stop => exact closes
      · exact fun t ht => ⟨if_pos ht, fun _ => if_pos ht⟩
      · exact fun _ h => h ▸ hcloses
      · intro t v ht hended hlength
        simp only [if_neg ht]
        apply (hpart t v ht hended hlength).bind hended hlength
        · exact fun s => hlater.map _
        · exact fun _ h => h ▸ hclosing
    · exact fun _ h => h

variable {stmt : Parser Stmt} {stmt' : ι → Parser Stmt}
  (hstmt : Viable stmt stmt' (· = .identifier) Closing true bound)
include hstmt

theorem block_viable {n : Nat} {m : ι → Nat} (hn : bound ≤ n) (hnm : ∀ i, n < m i) :
    Viable (block stmt n) (fun i => block (stmt' i) (m i)) (· = .openBrace) (fun _ => True) true
      bound := by
  have hbody := row_viable (statements_succ stmt) (fun i => statements_succ (stmt' i)) (.inl rfl)
    (.inl rfl) (fun t v _ => hstmt.course (t :: v)) hn hnm
  apply viable_after (by decide) (by decide)
  exact fun _ => (hbody.shorten (Nat.sub_le _ _)).closed rfl (by decide) (by decide) _

end

/-! ## Single statements -/

/-- One of two parsers, by the next token. -/
def choose {α : Type} (absent : Token.Kind → Prop) [DecidablePred absent] (p q : Parser α) :
    Parser α := do
  if absent (← peek).kind then p else q

section

variable {α : Type} {p : Parser α} {q : ι → Parser α}

theorem choose_bind {β : Type} {absent : Token.Kind → Prop} [DecidablePred absent]
    (p p' : Parser α) (f : α → Parser β) :
    choose absent p p' >>= f =
      peek >>= fun t => if absent t.kind then p >>= f else p' >>= f := by
  rw [choose, bind_assoc]
  congr
  funext t
  split <;> rfl

theorem choose_viable (absent : Token.Kind → Prop) [DecidablePred absent]
    {entry follow : Token.Kind → Prop} {bound : Nat}
    (hfollow : ∀ kind, absent kind → follow kind) (a : α)
    (h : Viable p q entry follow true bound) :
    Viable (choose absent (pure a) p) (fun i => choose absent (pure a) (q i)) absent absent false
      bound := by
  refine viable_until (fun t ht => ⟨if_pos ht, fun _ => if_pos ht⟩) (fun _ h => h) ?_
  intro t v ht hended hlength
  simp only [if_neg ht]
  exact (h.course _ hended hlength).mono hfollow id

theorem choose_refuse_viable (absent : Token.Kind → Prop) [DecidablePred absent]
    {entry follow : Token.Kind → Prop} {bound : Nat}
    (hentry : ∀ kind, entry kind → ¬ absent kind) {complaint : Complaint}
    (hcomplaint : complaint ≠ .unendedTokens) (h : Viable p q entry follow true bound) :
    Viable (choose absent (refuse complaint) p) (fun i => choose absent (refuse complaint) (q i))
      entry follow true bound := by
  refine viable_choice (h.completes.peek ?_) ?_
  · exact fun t ht i => if_neg (hentry _ ht)
  · intro t v hended hlength
    by_cases ht : absent t.kind
    · simp only [if_pos ht]
      exact course_refuse hcomplaint
    · simp only [if_neg ht]
      exact h.course _ hended hlength

end

theorem function_eq (stmt : Parser Stmt) (n : Nat) :
    function stmt n = (do
      let name ← expect .identifier .functionNameExpected
      let _ ← expect .openParen (.parametersExpected name.value)
      let params ← choose (· = .closeParen) (pure []) (parameters name.value n [])
      let _ ← expect .closeParen .parametersUnclosed
      let body ← block stmt n
      return .func name.value params body name) := by
  simp only [choose_bind]
  rfl

theorem returned_eq (expr : Parser Expr) (t : Token) :
    returned expr t = (do
      let value ← choose (fun kind => kind = .semicolon ∨ Closing kind) (pure .hole) expr
      let _ ← accept .semicolon
      return .ret value t) := by
  simp only [choose_bind]
  rfl

theorem forLoop_eq (expr : Parser Expr) (stmt : Parser Stmt) (n : Nat) (t : Token) :
    forLoop expr stmt n t = (do
      let _ ← expect .openParen .loopHeaderExpected
      let init ← initializer expr
      let _ ← expect .semicolon .initializerUnclosed
      let condition ← choose (· = .semicolon) (refuse .conditionExpected) expr
      let _ ← expect .semicolon .conditionUnclosed
      let post ← choose (· = .closeParen) (pure .hole) expr
      let _ ← expect .closeParen .loopHeaderUnclosed
      let body ← block stmt n
      return .forLoop init condition post body t) := by
  simp only [choose_bind]
  rfl

/-- Some name is always left for one more parameter. -/
theorem exists_fresh (seen : List Text) : ∃ name : Text, name ∉ seen := by
  refine ⟨0 :: seen.flatten, fun h => ?_⟩
  have hlength := (List.sublist_flatten_of_mem h).length_le
  rw [List.length_cons] at hlength
  omega

theorem parameters_viable (name : Text) {n bound : Nat} {m : ι → Nat} (hn : bound ≤ n)
    (hnm : ∀ i, n < m i) (seen : List Text) :
    Viable (parameters name n seen) (fun i => parameters name (m i) seen) (· = .identifier)
      (· = .closeParen) true bound := by
  have hcompletes {m : ι → Nat} (seen) :
      Completes (fun i => parameters name (m i + 1) seen) (· = .identifier) (· = .closeParen) := by
    obtain ⟨fresh, hfresh⟩ := exists_fresh seen
    refine ⟨[{ kind := .identifier, value := fresh }], seen ++ [fresh], fun t v ht =>
      ⟨⟨_, _, rfl, rfl⟩, fun i => ?_⟩⟩
    have hcomma : t.kind ≠ .comma := by simp [ht]
    simp only [parameters, List.singleton_append, peek_bind, ne_eq, not_true_eq_false, if_false,
      if_neg hfresh, advance_bind, accept_bind_of_ne hcomma]
    rfl
  induction n generalizing m bound seen with
  | zero =>
    obtain rfl : bound = 0 := by omega
    obtain ⟨m, rfl, -⟩ := exists_succ hnm
    exact viable_of_completes (hcompletes seen)
  | succ n ih =>
    obtain ⟨m, rfl, hless⟩ := exists_succ hnm
    refine viable_choice (hcompletes seen) ?_
    intro t v hended hlength
    by_cases ht : t.kind = .identifier
    · simp only [if_neg (not_not.mpr ht)]
      by_cases hseen : t.value ∈ seen
      · simp only [if_pos hseen]
        exact course_refuse (by simp)
      · simp only [if_neg hseen]
        apply course_advance (by simp [ht]) hended (Nat.le_sub_one_of_lt hlength)
        apply (viable_accept (fun kind => kind = .identifier ∨ kind = .closeParen) (by decide)
          (by decide)).bind
        · intro more
          show Viable _ _ (fun kind => kind = .identifier ∨ kind = .closeParen) _ _ _
          cases more with
          | true =>
            exact (ih (by omega) hless _).widen (fun _ => .inl) fun _ => .inr
          | false => exact viable_pure _ fun _ => .inr
        · exact fun _ h => h
    · simp only [if_pos ht]
      exact course_refuse (by decide)

section

variable {expr : Parser Expr} {expr' : ι → Parser Expr} {stmt : Parser Stmt}
  {stmt' : ι → Parser Stmt} {bound : Nat}

section

variable (hstmt : Viable stmt stmt' (· = .identifier) Closing true bound) {n : Nat} {m : ι → Nat}
  (hn : bound ≤ n) (hnm : ∀ i, n < m i)
include hstmt hn hnm

theorem function_viable :
    Viable (function stmt n) (fun i => function (stmt' i) (m i)) (· = .identifier) (fun _ => True)
      true bound := by
  simp only [function_eq]
  apply viable_after (by decide) (by decide)
  intro name
  apply viable_after (by decide) (by simp)
  intro _
  have hparameters := choose_viable (· = .closeParen) (fun _ h => h) []
    (parameters_viable name.value hn hnm [])
  apply (hparameters.shorten ((Nat.sub_le _ _).trans (Nat.sub_le _ _))).bind
  · intro params
    apply viable_after (by decide) (by decide)
    exact fun _ => ((block_viable hstmt hn hnm).shorten (by omega)).map _
  · exact fun _ h => h

theorem member_course {t : Token} {v : List Token} (hended : Ended (t :: v))
    (hlength : (t :: v).length ≤ bound) :
    Course (member stmt n t) (fun i => member (stmt' i) (m i) t) Closing true (t :: v) := by
  by_cases hkind : t.kind = .funcWord
  · simp only [member, if_pos hkind]
    apply Course.mono ?_ (fun _ _ => trivial) id
    exact course_advance (by simp [hkind]) hended (Nat.le_of_succ_le hlength)
      (function_viable hstmt hn hnm)
  · simp only [member, if_neg hkind]
    exact course_refuse (by decide)

theorem classDefinition_viable :
    Viable (classDefinition stmt n) (fun i => classDefinition (stmt' i) (m i)) (· = .identifier)
      (fun _ => True) true bound := by
  have hbody := row_viable (members_succ stmt n) (fun i => members_succ (stmt' i) (m i)) (.inl rfl)
    (.inl rfl) (fun _ _ _ => member_course hstmt hn hnm) hn hnm
  apply viable_after (by decide) (by decide)
  intro name
  apply viable_after (by decide) (by simp)
  exact fun _ => (hbody.shorten (by omega)).closed rfl (by decide) (by simp) _

/-- What comes after the block of a condition, if a further condition gets on with the tokens from
its word on. -/
theorem alternatives_viable {follow : Token.Kind → Prop}
    (hfollow : ∀ kind, follow kind → kind ≠ .elseifWord ∧ kind ≠ .elseWord) {k : Nat} {l : ι → Nat}
    (hnext : ∀ t v, t.kind ≠ .endOfInput → Ended (t :: v) → (t :: v).length ≤ bound →
      Course (conditional expr stmt n k) (fun i => conditional (expr' i) (stmt' i) (m i) (l i))
        follow true (t :: v)) (build : Bool → List Stmt → Stmt) :
    Viable (alternatives expr stmt n k build)
      (fun i => alternatives (expr' i) (stmt' i) (m i) (l i) build) follow follow false
      bound := by
  have hlast {t v} (ht : t.kind ≠ .endOfInput) (hended : Ended (t :: v))
      (hlength : (t :: v).length ≤ bound) :=
    (hnext t v ht hended hlength).bind hended hlength
      (fun next => viable_pure (build true [next]) fun _ h => h) fun _ h => h
  have hblock := ((block_viable hstmt hn hnm).map (build true)).narrow
    (fun _ _ => trivial : ∀ kind, follow kind → True)
  apply viable_until
  case stop => exact fun kind => kind ≠ .elseifWord ∧ kind ≠ .elseWord
  · intro t ht
    cases hkind : t.kind <;> first | exact ⟨rfl, fun _ => rfl⟩ | simp [hkind] at ht
  · exact hfollow
  · intro t v ht hended hlength
    by_cases hkind : t.kind = .elseifWord
    · simp only [hkind]
      exact hlast (by simp [hkind]) hended hlength
    · have hkind : t.kind = .elseWord := not_not.mp fun h => ht ⟨hkind, h⟩
      simp only [hkind]
      apply course_advance (by simp [hkind]) hended (Nat.le_of_succ_le hlength)
      apply viable_choice (hblock.completes.peek ?_)
      · intro t v hended hlength
        by_cases hkind : t.kind = .ifWord
        · simp only [if_pos hkind]
          exact hlast (by simp [hkind]) hended hlength
        · simp only [if_neg hkind]
          exact hblock.course _ hended hlength
      · exact fun t ht i => if_neg (by simp [ht])

end

section

variable (hexpr : Viable expr expr' (· = .identifier) Settled true bound)
include hexpr

theorem returned_viable (t : Token) :
    Viable (returned expr t) (fun i => returned (expr' i) t)
      (fun kind => kind = .semicolon ∨ Closing kind) Closing false bound := by
  simp only [returned_eq]
  have hvalue := choose_viable (fun kind => kind = .semicolon ∨ Closing kind)
    (by rintro _ (rfl | rfl | rfl) <;> rfl) .hole hexpr
  apply hvalue.bind
  · exact fun value => (viable_accept Closing (by decide) (by decide)).map _
  · exact fun _ => .inr

theorem initializer_viable :
    Viable (initializer expr) (fun i => initializer (expr' i)) (· = .semicolon) (· = .semicolon)
      false bound := by
  refine viable_until (fun t ht => ⟨if_pos ht, fun _ => if_pos ht⟩) (fun _ h => h) ?_
  intro t v ht hended hlength
  simp only [if_neg ht]
  apply ((hexpr.map _).course _ hended hlength).mono ?_ id
  rintro _ rfl
  rfl

theorem expressionStatement_viable (t : Token) :
    Viable (expressionStatement expr t) (fun i => expressionStatement (expr' i) t) (· = .identifier)
      Closing true bound := by
  apply hexpr.bind
  · exact fun e => (viable_accept Closing (by decide) (by decide)).map _
  · rintro _ (rfl | rfl) <;> rfl

variable (hstmt : Viable stmt stmt' (· = .identifier) Closing true bound) {n : Nat} {m : ι → Nat}
  (hn : bound ≤ n) (hnm : ∀ i, n < m i)
include hstmt hn hnm

theorem whileLoop_viable (t : Token) :
    Viable (whileLoop expr stmt n t) (fun i => whileLoop (expr' i) (stmt' i) (m i) t)
      (· = .identifier) (fun _ => True) true bound := by
  apply hexpr.bind
  · exact fun condition => ((block_viable hstmt hn hnm).shorten (Nat.sub_le _ _)).map _
  · rintro _ rfl
    rfl

theorem forLoop_viable (t : Token) :
    Viable (forLoop expr stmt n t) (fun i => forLoop (expr' i) (stmt' i) (m i) t) (· = .openParen)
      (fun _ => True) true bound := by
  have hcondition := choose_refuse_viable (· = .semicolon) (by rintro _ rfl; decide)
    (by decide : Complaint.conditionExpected ≠ .unendedTokens) hexpr
  have hpost := choose_viable (· = .closeParen) (by rintro _ rfl; rfl) .hole hexpr
  simp only [forLoop_eq]
  apply viable_after (by decide) (by decide)
  intro _
  apply ((initializer_viable hexpr).shorten (Nat.sub_le _ _)).bind
  · intro init
    apply viable_after (by decide) (by decide)
    intro _
    apply (hcondition.shorten (by omega)).bind
    · intro condition
      apply viable_after (by decide) (by decide)
      intro _
      apply (hpost.shorten (by omega)).bind
      · intro post
        apply viable_after (by decide) (by decide)
        exact fun _ => ((block_viable hstmt hn hnm).shorten (by omega)).map _
      · exact fun _ h => h
    · rintro _ rfl
      rfl
  · exact fun _ h => h

theorem conditional_course {follow : Token.Kind → Prop}
    (hfollow : ∀ kind, follow kind → kind ≠ .elseifWord ∧ kind ≠ .elseWord) {k : Nat} {l : ι → Nat}
    (hkl : ∀ i, k < l i) {t : Token} {v : List Token} (ht : t.kind ≠ .endOfInput)
    (hended : Ended (t :: v)) (hbound : v.length ≤ bound) (hk : v.length < k) :
    Course (conditional expr stmt n k) (fun i => conditional (expr' i) (stmt' i) (m i) (l i))
      follow true (t :: v) := by
  -- Each further condition has a word of its own, so the list it is read from is shorter.
  induction k generalizing l t v with
  | zero => omega
  | succ k ih =>
    obtain ⟨l, rfl, hless⟩ := exists_succ hkl
    simp only [conditional_succ]
    apply course_advance ht hended le_rfl
    refine (?_ : Viable _ _ (· = .identifier) _ _ _)
    apply (hexpr.shorten hbound).bind
    · intro condition
      apply ((block_viable hstmt hn hnm).shorten ((Nat.sub_le _ _).trans hbound)).bind
      · intro thenBody
        apply alternatives_viable (hstmt.shorten (by omega)) (by omega) hnm hfollow
        intro t' v' ht' hended' hlength
        rw [List.length_cons] at hlength
        exact ih hless ht' hended' (by omega) (by omega)
      · exact fun _ _ => trivial
    · rintro _ rfl
      rfl

end

end

/-- The words of the statements that end with a block. -/
def Compound (kind : Token.Kind) : Prop :=
  kind = .funcWord ∨ kind = .classWord ∨ kind = .ifWord ∨ kind = .whileWord ∨ kind = .forWord

section

variable {expr : Parser Expr} {expr' : ι → Parser Expr} {stmt : Parser Stmt}
  {stmt' : ι → Parser Stmt} {bound n : Nat} {m : ι → Nat} {t : Token} {v : List Token}

/-- Behind a block, only a further branch would be read on. -/
theorem compound_course (hexpr : Viable expr expr' (· = .identifier) Settled true bound)
    (hstmt : Viable stmt stmt' (· = .identifier) Closing true bound) (hn : bound < n)
    (hnm : ∀ i, n < m i) (hword : Compound t.kind) (hended : Ended (t :: v))
    (hv : v.length ≤ bound) :
    Course (statementWith expr stmt n) (fun i => statementWith (expr' i) (stmt' i) (m i))
      (fun kind => kind ≠ .elseifWord ∧ kind ≠ .elseWord) true (t :: v) := by
  have hall : ∀ kind : Token.Kind, kind ≠ .elseifWord ∧ kind ≠ .elseWord → True :=
    fun _ _ => trivial
  apply Course.peek
  rcases hword with hkind | hkind | hkind | hkind | hkind
  · simp only [hkind]
    apply course_advance (by simp [hkind]) hended hv
    exact (function_viable hstmt hn.le hnm).narrow hall
  · simp only [hkind]
    apply course_advance (by simp [hkind]) hended hv
    exact (classDefinition_viable hstmt hn.le hnm).narrow hall
  · simp only [hkind]
    have hless : v.length < n := hv.trans_lt hn
    exact conditional_course hexpr hstmt hn.le hnm (fun _ h => h) hnm (by simp [hkind]) hended hv
      hless
  · simp only [hkind]
    apply course_advance (by simp [hkind]) hended hv
    exact (whileLoop_viable hexpr hstmt hn.le hnm t).narrow hall
  · simp only [hkind]
    apply course_advance (by simp [hkind]) hended hv
    exact (forLoop_viable hexpr hstmt hn.le hnm t).narrow hall

theorem statementWith_course
    (hexpr : Viable expr expr' (· = .identifier) Settled true (bound + 1))
    (hstmt : Viable stmt stmt' (· = .identifier) Closing true bound) (hn : bound < n)
    (hnm : ∀ i, n < m i) (hended : Ended (t :: v)) (hlength : (t :: v).length ≤ bound + 1) :
    Course (statementWith expr stmt n) (fun i => statementWith (expr' i) (stmt' i) (m i)) Closing
      true (t :: v) := by
  have hv : v.length ≤ bound := Nat.le_of_succ_le_succ hlength
  have hexpr' := hexpr.shorten (Nat.le_succ bound)
  by_cases hword : Compound t.kind
  · refine (compound_course hexpr' hstmt hn hnm hword hended hv).mono ?_ id
    rintro _ (rfl | rfl) <;> decide
  · apply Course.peek
    cases hkind : t.kind with
    | returnWord =>
      apply course_advance (by simp [hkind]) hended hv
      exact returned_viable hexpr' t
    | closeBrace | endOfInput => exact course_refuse (by decide)
    | funcWord | classWord | ifWord | whileWord | forWord => simp [hkind, Compound] at hword
    | _ => exact (expressionStatement_viable hexpr t).course _ hended hlength

end

theorem statement_completes {m : ι → Nat} (hm : ∀ i, 1 < m i) :
    Completes (fun i => statement (m i)) (· = .identifier) Closing := by
  obtain ⟨m, rfl, hpos⟩ := exists_succ hm
  refine ⟨[anyName], .expr (.ident [] anyName) anyName, fun t v ht =>
    ⟨⟨anyName, t :: v, rfl, rfl⟩, fun i => ?_⟩⟩
  have hsettled : Settled t.kind := by rcases ht with h | h <;> simp [h, Settled, Token.Kind.joint]
  have hread := expression_anyName (Nat.succ_le_succ (hpos i)) hsettled v
  have hsemicolon : t.kind ≠ .semicolon := by rcases ht with h | h <;> simp [h]
  change expressionStatement (expression (m i + 1)) anyName (anyName :: t :: v) = _
  rw [expressionStatement, bind_of_ok hread, accept_bind_of_ne hsemicolon]
  rfl

theorem statement_viable {n : Nat} {m : ι → Nat} (hnm : ∀ i, n + 1 < m i) :
    Viable (statement n) (fun i => statement (m i)) (· = .identifier) Closing true (n - 1) := by
  induction n generalizing m with
  | zero => exact viable_of_completes (statement_completes hnm)
  | succ n ih =>
    have hcompletes : Completes (fun i => statement (m i)) (· = .identifier) Closing :=
      statement_completes fun i => (Nat.le_add_left 2 _).trans (hnm i)
    cases n with
    | zero => exact viable_of_completes hcompletes
    | succ n =>
      have hexpr := expression_viable hnm
      obtain ⟨m, rfl, hless⟩ := exists_succ hnm
      refine viable_of_strict hcompletes fun tokens hended hlength => ?_
      obtain ⟨t, v, rfl⟩ := List.exists_cons_of_ne_nil hended.ne_nil
      exact statementWith_course hexpr (ih hless) (Nat.lt_succ_self n)
        (fun i => Nat.lt_of_succ_lt (hless i)) hended hlength

/-- The counts for statements and for their number may differ. -/
theorem program_viable_of_counts {n : Nat} {m l : ι → Nat} (hnm : ∀ i, n + 1 < m i)
    (hnl : ∀ i, n < l i) :
    Viable (program (statement n) n) (fun i => program (statement (m i)) (l i)) (· = .endOfInput)
      (· = .endOfInput) false (n - 1) :=
  row_viable (program_succ (statement n)) (fun i => program_succ (statement (m i))) rfl (.inr rfl)
    (fun t v _ => (statement_viable hnm).course (t :: v)) (Nat.sub_le _ _) hnl

theorem program_viable {n : Nat} {m : ι → Nat} (hnm : ∀ i, n + 1 < m i) :
    Viable (program (statement n) n) (fun i => program (statement (m i)) (m i)) (· = .endOfInput)
      (· = .endOfInput) false (n - 1) :=
  program_viable_of_counts hnm fun i => Nat.lt_of_succ_lt (hnm i)

/-- What all large counts make of a list, the count for the list itself makes of it too. -/
theorem program_of_large {tokens : List Token} (hended : Ended tokens) {least : Nat}
    {result : Except Refusal (List Stmt × List Token)}
    (h : ∀ m, least < m → program (statement m) m tokens = result) :
    program (statement (tokens.length + 1)) (tokens.length + 1) tokens = result := by
  let m := max least tokens.length + 3
  have hm : tokens.length + 2 < m := by omega
  have hcourse := (program_viable fun _ : Unit => hm).course tokens hended le_rfl
  rw [← hcourse.agrees ()]
  exact h m (by omega)

end Parser

/-! ## Programs -/

/-- The last token marks the end of the input. -/
def Grammar.Finished (tokens : List Token) : Prop :=
  ∃ last, tokens.getLast? = some last ∧ last.kind = .endOfInput

theorem Grammar.Finished.ended {tokens : List Token} (h : Finished tokens) : Ended tokens := by
  obtain ⟨last, hlast, hkind⟩ := h
  exact ⟨last, List.mem_of_getLast? hlast, hkind⟩

namespace Program

section

variable {tokens : List Token} (hfinished : Finished tokens)
include hfinished

theorem parse_of_ok {body : List Stmt} {rest : List Token}
    (h : Parser.program (Parser.statement (tokens.length + 1)) (tokens.length + 1) tokens =
      .ok (body, rest)) : parse tokens = .ok ⟨tokens.headD {}, body⟩ := by
  obtain ⟨last, hlast, hkind⟩ := hfinished
  simp only [parse, continued_of_ended hlast hkind, h]

theorem parse_of_error {refusal : Refusal}
    (h : Parser.program (Parser.statement (tokens.length + 1)) (tokens.length + 1) tokens =
      .error refusal) :
    parse tokens = .error ⟨refusal.complaint, (refusal.rest.headD {}).location⟩ := by
  obtain ⟨last, hlast, hkind⟩ := hfinished
  simp only [parse, continued_of_ended hlast hkind, h]

end

/-- The parser gives up with a complaint when token number `k` is the next one. -/
def RefusedAt (tokens : List Token) (k : Nat) (complaint : Complaint) : Prop :=
  k < tokens.length ∧
    Parser.program (Parser.statement (tokens.length + 1)) (tokens.length + 1) tokens =
      .error ⟨complaint, tokens.drop k⟩

/-- Token number `k` is the first of a list that cannot be right, and an error tells so. -/
structure FirstWrong (tokens : List Token) (k : Nat) (e : SyntaxError) : Prop where
  refused : RefusedAt tokens k e.complaint
  located : ∃ t, tokens[k]? = some t ∧ e.location = t.location
  /-- What comes after the token does not matter. -/
  hopeless : ∀ tokens', Finished tokens' → tokens'.take (k + 1) = tokens.take (k + 1) →
    RefusedAt tokens' k e.complaint ∧ parse tokens' = .error e
  /-- What comes before the token begins a program. -/
  hopeful : ∃ continuation program, Finished continuation ∧
    parse (tokens.take k ++ continuation) = .ok program

end Program

/-- A list of tokens is refused at the first token that cannot be right. -/
theorem refused_at_first_wrong_token {tokens : List Token} (hfinished : Finished tokens)
    {e : SyntaxError} (h : Program.parse tokens = .error e) :
    ∃ k, Program.FirstWrong tokens k e := by
  -- All larger counts are compared at once, since the lists in question may have any length.
  have hviable := Parser.program_viable fun m : { m // tokens.length + 2 < m } => m.property
  cases hviable.course tokens hfinished.ended le_rfl with
  | takes _ _ _ hok _ =>
    rw [Program.parse_of_ok hfinished hok] at h
    cases h
  | @refuses w t v complaint hsplit hinside _ herror hq hother =>
    obtain rfl : e = ⟨complaint, t.location⟩ := by
      rw [Program.parse_of_error hfinished herror] at h
      exact (Except.error.inj h).symm
    subst hsplit
    refine ⟨w.length, ⟨by simp, by rw [herror, List.drop_left]⟩, ⟨t, by simp, rfl⟩, ?_, ?_⟩
    · intro tokens' hfinished' htake
      obtain ⟨v', rfl⟩ : ∃ v', tokens' = w ++ t :: v' := by
        refine ⟨tokens'.drop (w.length + 1), ?_⟩
        have hbegin : tokens'.take (w.length + 1) = w ++ [t] := by
          rw [htake, List.take_length_add_append, List.take_one]
          rfl
        rw [← List.take_append_drop (w.length + 1) tokens', hbegin]
        simp
      have hrun := Parser.program_of_large hfinished'.ended fun m hm => hq ⟨m, hm⟩ v'
      refine ⟨⟨by simp, by rw [hrun, List.drop_left]⟩, ?_⟩
      exact Program.parse_of_error hfinished' hrun
    · obtain ⟨w', body, hread⟩ := hviable.completion hother
      let last : Token := { kind := .endOfInput }
      have hfinished' : Finished (w ++ (w' ++ [last])) := ⟨last, by simp, rfl⟩
      have hrun := Parser.program_of_large hfinished'.ended fun m hm => hread ⟨m, hm⟩ last [] rfl
      rw [List.take_left]
      exact ⟨w' ++ [last], _, ⟨last, by simp, rfl⟩, Program.parse_of_ok hfinished' hrun⟩

/-- The second parameter of a function is wrong where it has the name of the first. -/
theorem repeated_parameter_refused :
    let t (kind : Token.Kind) : Token := { kind }
    let tokens := [.funcWord, .identifier, .openParen, .identifier, .comma, .identifier,
      .closeParen, .openBrace, .endOfInput].map t
    let e : SyntaxError := ⟨.duplicateParameter [] [], {}⟩
    Finished tokens ∧ Program.parse tokens = .error e ∧
      ∃ k, Program.FirstWrong tokens k e := by
  intro t tokens e
  have hfinished : Finished tokens := ⟨t .endOfInput, rfl, rfl⟩
  have herror : Program.parse tokens = .error e := by rfl
  exact ⟨hfinished, herror, refused_at_first_wrong_token hfinished herror⟩

end Script
