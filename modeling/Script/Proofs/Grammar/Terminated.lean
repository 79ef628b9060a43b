import Script.Proofs.Grammar.Completeness

/-!
# Every program with its semicolons is read

Where each expression statement and each `return` has a semicolon of its own, the parser reads the
word of a program to its end and returns its tree. Without these semicolons it might read on: two
statements in a row can look like one call or one index.

Three loops of the parser read statements in a row, of a block, of a class and of a program. `row`
is one round of any of them, and the induction over a row is made once for all.
-/

namespace Script

open Grammar

/-- The tokens that can begin a statement. -/
def Token.Kind.opens : Token.Kind → Bool
  | .funcWord | .classWord | .returnWord | .ifWord | .whileWord | .forWord => true
  | kind => kind.begins

theorem Token.Kind.opens_of_begins {kind : Token.Kind} (h : kind.begins = true) :
    kind.opens = true := by
  cases kind <;> first | exact h | rfl

namespace Grammar

/-- A semicolon that must be there. Further ones belong to the row that the statement stands in. -/
inductive Terminator : List Token → Prop
  | intro {t : Token} : t.kind = .semicolon → Terminator [t]

/-- The tokens that can begin a statement of a form. -/
def Form.Opens : Form → Token.Kind → Prop
  | .statement, kind => kind.opens = true
  | .function, kind => kind = .funcWord
  | .conditional word, kind => kind = word

theorem Statement.opens {ending : List Token → Prop} {form : Form} {w : List Token} {s : Stmt}
    (h : Statement ending form w s) : ∃ t v, w = t :: v ∧ form.Opens t.kind := by
  induction h with
  | function hword => exact ⟨_, _, rfl, hword⟩
  | single hword | otherwise hword | elseIf hword | elseif hword => exact ⟨_, _, rfl, hword⟩
  | func _ ih | branch _ ih =>
    obtain ⟨t, v, rfl, ht⟩ := ih
    refine ⟨t, v, rfl, ?_⟩
    rw [Form.Opens] at ht
    rw [Form.Opens, ht]
    rfl
  | classDef hword | ret hword | whileLoop hword | forLoop hword =>
    refine ⟨_, _, rfl, ?_⟩
    rw [Form.Opens, hword]
    rfl
  | expr he =>
    obtain ⟨_, _, hcons, hbegins, -⟩ := he.begins
    obtain ⟨rfl, rfl⟩ := List.cons.inj hcons
    exact ⟨_, _, rfl, Token.Kind.opens_of_begins hbegins⟩

/-- No part is longer than the row it stands in. -/
theorem Sequence.length_le {parts : List (Reading Stmt)} {w : List Token}
    (h : Sequence parts w) : ∀ part ∈ parts, part.1.length ≤ w.length := by
  induction h with
  | nil => simp
  | semicolon _ _ ih =>
    intro part hpart
    have hle := ih part hpart
    rw [List.length_cons]
    omega
  | cons _ ih =>
    refine List.forall_mem_cons.mpr ⟨by simp, fun part hpart => ?_⟩
    have hle := ih part hpart
    rw [List.length_append]
    omega

theorem Block.length_lt {parts : List (Reading Stmt)} {w : List Token} (h : Block parts w) :
    ∀ part ∈ parts, part.1.length < w.length := by
  obtain ⟨-, hw, -⟩ := h
  intro part hpart
  have hle := hw.length_le part hpart
  simp only [List.length_append, List.length_cons, List.length_nil]
  omega

/-- The tokens go on with one that does not carry on a condition. -/
def Settles (tokens : List Token) : Prop :=
  ∃ t rest, tokens = t :: rest ∧ t.kind ≠ .elseWord ∧ t.kind ≠ .elseifWord

theorem settles_of_opens {t : Token} {rest : List Token} (h : t.kind.opens = true) :
    Settles (t :: rest) := by
  refine ⟨t, rest, rfl, ?_, ?_⟩
  all_goals
    intro hkind
    simp [hkind, Token.Kind.opens, Token.Kind.begins] at h

end Grammar

namespace Parser

variable {t : Token} {tokens rest : List Token}

/-! ## Statements in a row -/

theorem skipSemicolons_semicolon {α : Type} {f : Unit → Parser α} (h : t.kind = .semicolon) :
    (skipSemicolons >>= f) (t :: rest) = (skipSemicolons >>= f) rest := by
  have hdrop : skipSemicolons (t :: rest) = skipSemicolons rest := by
    rw [skipSemicolons, List.dropWhile_cons_of_pos (by simpa using h)]
    rfl
  change (skipSemicolons (t :: rest) >>= fun r => f r.1 r.2) = _
  rw [hdrop]
  rfl

/-- One round of a loop that reads parts up to a closing token, with semicolons before each. -/
def row (closes : Token.Kind → Prop) [DecidablePred closes] (part : Token → Parser Stmt)
    (later : Parser (List Stmt)) : Parser (List Stmt) := do
  skipSemicolons
  let t ← peek
  if closes t.kind then
    return []
  else
    return (← part t) :: (← later)

/-- The tokens that end the statements of a block. -/
abbrev Closing (kind : Token.Kind) : Prop :=
  kind = .closeBrace ∨ kind = .endOfInput

theorem statements_succ (stmt : Parser Stmt) (n : Nat) :
    statements stmt (n + 1) = row Closing (fun _ => stmt) (statements stmt n) :=
  rfl

theorem program_succ (stmt : Parser Stmt) (n : Nat) :
    program stmt (n + 1) = row (· = .endOfInput) (fun _ => stmt) (program stmt n) :=
  rfl

/-- A member of a class is a function, after the word that announces it. -/
def member (stmt : Parser Stmt) (n : Nat) (t : Token) : Parser Stmt :=
  if t.kind = .funcWord then do
    let _ ← advance
    function stmt n
  else
    refuse .methodExpected

theorem members_succ (stmt : Parser Stmt) (n m : Nat) :
    members stmt n (m + 1) = row Closing (member stmt n) (members stmt n m) := by
  rw [members, row]
  congr
  funext _
  congr
  funext t
  by_cases ht : t.kind = .funcWord
  · simp only [member, if_pos ht, bind_assoc]
  · simp only [member, if_neg ht]
    rfl

section

variable {closes : Token.Kind → Prop} [DecidablePred closes] {part : Token → Parser Stmt}
  {later : Parser (List Stmt)}

theorem row_close (ht : closes t.kind) (hkind : t.kind ≠ .semicolon) :
    row closes part later (t :: rest) = .ok ([], t :: rest) := by
  rw [row, skipSemicolons_bind hkind, peek_bind, if_pos ht]
  rfl

theorem row_skip (ht : t.kind = .semicolon) :
    row closes part later (t :: rest) = row closes part later rest :=
  skipSemicolons_semicolon ht

theorem row_round (ht : ¬ closes t.kind) (hkind : t.kind ≠ .semicolon) {s : Stmt}
    {mid left : List Token} {body : List Stmt} (hs : part t (t :: rest) = .ok (s, mid))
    (hbody : later mid = .ok (body, left)) :
    row closes part later (t :: rest) = .ok (s :: body, left) := by
  rw [row, skipSemicolons_bind hkind, peek_bind, if_neg ht, bind_of_ok hs, bind_of_ok hbody]
  rfl

end

/-- The parser takes a word off the front wherever a statement can end. -/
def TakesStatement (p : Parser Stmt) (part : Reading Stmt) : Prop :=
  ∀ rest, Settles rest → p (part.1 ++ rest) = .ok (part.2, rest)

theorem sequence_complete {loop : Nat → Parser (List Stmt)} {closes : Token.Kind → Prop}
    [DecidablePred closes] {p : Token → Parser Stmt}
    (hloop : ∀ n, loop (n + 1) = row closes p (loop n))
    (hcloses : ∀ kind, closes kind → Closing kind) {closing : Token}
    (hclosing : closes closing.kind) {parts : List (Reading Stmt)} {w : List Token}
    (hw : Sequence parts w)
    (hparts : ∀ part ∈ parts, ∃ t v, part.1 = t :: v ∧ t.kind.opens = true ∧
      TakesStatement (p t) part) {n : Nat} (hn : w.length < n) (rest : List Token) :
    loop n (w ++ closing :: rest) = .ok (parts.map Prod.snd, closing :: rest) ∧
      Settles (w ++ closing :: rest) := by
  obtain ⟨n, rfl⟩ := Nat.exists_eq_succ_of_ne_zero (Nat.ne_zero_of_lt hn)
  rw [hloop]
  induction hw generalizing n with
  | nil =>
    have hkind : closing.kind ≠ .semicolon ∧ closing.kind ≠ .elseWord ∧
        closing.kind ≠ .elseifWord := by
      rcases hcloses _ hclosing with h | h <;> simp [h]
    exact ⟨row_close hclosing hkind.1, closing, rest, rfl, hkind.2⟩
  | @semicolon t parts w ht _ ih =>
    rw [List.length_cons] at hn
    refine ⟨?_, t, w ++ closing :: rest, rfl, by simp [ht], by simp [ht]⟩
    rw [List.cons_append, row_skip ht]
    exact (ih hparts n (by omega)).1
  | @cons w s parts w' _ ih =>
    obtain ⟨⟨t, v, hv, ht, htakes⟩, hlaterParts⟩ := List.forall_mem_cons.mp hparts
    obtain rfl : w = t :: v := hv
    simp only [List.length_append, List.length_cons] at hn
    obtain ⟨n, rfl⟩ : ∃ k, n = k + 1 := ⟨n - 1, by omega⟩
    obtain ⟨hlater, hnext⟩ := ih hlaterParts n (by omega)
    have hkind : ¬ closes t.kind ∧ t.kind ≠ .semicolon := by
      constructor
      · intro h
        rcases hcloses _ h with h | h <;> simp [h, Token.Kind.opens, Token.Kind.begins] at ht
      · intro h
        simp [h, Token.Kind.opens, Token.Kind.begins] at ht
    refine ⟨?_, settles_of_opens ht⟩
    rw [List.append_assoc]
    exact row_round hkind.1 hkind.2 (htakes _ hnext) (by rw [hloop, hlater])

theorem block_complete {stmt : Parser Stmt} {parts : List (Reading Stmt)} {w : List Token}
    (hw : Block parts w)
    (hparts : ∀ part ∈ parts,
      ∃ t v, part.1 = t :: v ∧ t.kind.opens = true ∧ TakesStatement stmt part) {n : Nat}
    (hn : w.length ≤ n) (rest : List Token) :
    block stmt n (w ++ rest) = .ok (parts.map Prod.snd, rest) := by
  cases hw with
  | @intro w opening closing hopening hw hclosing =>
    simp only [List.length_append, List.length_cons, List.length_nil] at hn
    have hbody := (sequence_complete (statements_succ stmt) (fun _ h => h) (.inl hclosing) hw
      hparts (n := n) (by omega) rest).1
    simp only [List.cons_append, List.append_assoc, List.nil_append]
    rw [block, expect_bind hopening, bind_of_ok hbody, expect_bind hclosing]
    rfl

/-! ## Single statements -/

theorem names_complete {w : List Token} {names : List Text} (hw : Names w names)
    (function : Text) (seen : List Text) (hnodup : (seen ++ names).Nodup) {closing : Token}
    (hclosing : closing.kind = .closeParen) {n : Nat} (hn : w.length ≤ n) :
    parameters function n seen (w ++ closing :: rest) = .ok (seen ++ names, closing :: rest) := by
  induction hw generalizing seen n with
  | @last name hname =>
    obtain ⟨n, rfl⟩ := Nat.exists_eq_succ_of_ne_zero (Nat.ne_zero_of_lt hn)
    have hfresh : name.value ∉ seen := by
      rw [List.nodup_append] at hnodup
      exact fun h => hnodup.2.2 _ h _ List.mem_cons_self rfl
    rw [parameters, List.singleton_append, peek_bind, if_neg (not_not.mpr hname), if_neg hfresh,
      advance_bind, accept_bind_of_ne (by simp [hclosing])]
    rfl
  | @cons name comma w names hname hcomma _ ih =>
    obtain ⟨n, rfl⟩ := Nat.exists_eq_succ_of_ne_zero (Nat.ne_zero_of_lt hn)
    have hfresh : name.value ∉ seen := by
      rw [List.nodup_append] at hnodup
      exact fun h => hnodup.2.2 _ h _ List.mem_cons_self rfl
    have hnodup : ((seen ++ [name.value]) ++ names).Nodup := by simpa using hnodup
    rw [List.length_cons, List.length_cons] at hn
    have hlater := ih (seen ++ [name.value]) hnodup (n := n) (by omega)
    rw [parameters, List.cons_append, List.cons_append, peek_bind, if_neg (not_not.mpr hname),
      if_neg hfresh, advance_bind, accept_bind_of_eq hcomma, if_pos rfl, hlater]
    simp

/-- How far the parsers of a form get with a word in front of other tokens. -/
def ReadsStatement : Form → List Token → Stmt → Prop
  | .statement, w, s => ∀ n, w.length ≤ n → TakesStatement (statement (n + 1)) (w, s)
  | .function, w, s => ∀ n, w.length ≤ n →
      TakesStatement (do let _ ← advance; function (statement n) n) (w, s)
  | .conditional _, w, s => ∀ n m, w.length ≤ n → w.length ≤ m →
      TakesStatement (conditional (expression (n + 1)) (statement n) n m) (w, s)

theorem ReadsStatement.takes {w : List Token} {s : Stmt} (h : ReadsStatement .statement w s)
    {n : Nat} (hn : w.length < n) : TakesStatement (statement n) (w, s) := by
  obtain ⟨n, rfl⟩ := Nat.exists_eq_succ_of_ne_zero (Nat.ne_zero_of_lt hn)
  exact h n (by omega)

section

variable {ending : List Token → Prop}

/-- The parts of a block are shorter than the block. -/
theorem block_read {parts : List (Reading Stmt)} {w : List Token} (hw : Block parts w)
    (hparts : ∀ part ∈ parts, Statement ending .statement part.1 part.2)
    (hreads : ∀ part ∈ parts, ReadsStatement .statement part.1 part.2) {n : Nat}
    (hn : w.length ≤ n) (rest : List Token) :
    block (statement n) n (w ++ rest) = .ok (parts.map Prod.snd, rest) := by
  refine block_complete hw (fun part hpart => ?_) hn rest
  have hlength := hw.length_lt part hpart
  obtain ⟨t, v, hv, ht⟩ := (hparts part hpart).opens
  exact ⟨t, v, hv, ht, (hreads part hpart).takes (by omega)⟩

theorem reads_function {word name opening closing : Token} {w w' : List Token}
    {params : List Text} {parts : List (Reading Stmt)} (hname : name.kind = .identifier)
    (hopening : opening.kind = .openParen) (hw : Parameters w params)
    (hclosing : closing.kind = .closeParen)
    (hparts : ∀ part ∈ parts, Statement ending .statement part.1 part.2)
    (hreads : ∀ part ∈ parts, ReadsStatement .statement part.1 part.2) (hw' : Block parts w') :
    ReadsStatement .function (word :: name :: opening :: w ++ closing :: w')
      (.func name.value params (parts.map Prod.snd) name) := by
  intro n hn rest _
  simp only [List.length_append, List.length_cons] at hn
  have hbody := block_read hw' hparts hreads (n := n) (by omega) rest
  simp only [List.cons_append, List.append_assoc, advance_bind, function, expect_bind hname,
    expect_bind hopening]
  cases hw with
  | none =>
    simp only [List.nil_append, peek_bind, hclosing, if_true, pure_bind, expect_bind hclosing,
      bind_of_ok hbody]
    rfl
  | some hw hnodup =>
    have hnames : parameters name.value n [] (w ++ closing :: (w' ++ rest)) = _ :=
      names_complete hw name.value [] hnodup hclosing (by omega)
    have ht : ∃ t v, w = t :: v ∧ t.kind ≠ .closeParen := by
      cases hw with
      | last hname | cons hname _ _ => exact ⟨_, _, rfl, by simp [hname]⟩
    obtain ⟨t, v, rfl, ht⟩ := ht
    simp only [List.cons_append] at hnames ⊢
    simp only [peek_bind, if_neg ht, bind_of_ok hnames, expect_bind hclosing, bind_of_ok hbody]
    rfl

theorem reads_func {w : List Token} {s : Stmt} (hw : Statement ending .function w s)
    (h : ReadsStatement .function w s) : ReadsStatement .statement w s := by
  intro n hn rest hrest
  have hread := h n hn rest hrest
  obtain ⟨t, v, rfl, ht⟩ := hw.opens
  simp only [List.cons_append, advance_bind] at hread ⊢
  simp only [statement, statementWith, peek_bind, show t.kind = .funcWord from ht, advance_bind]
  exact hread

theorem reads_class {word name opening closing : Token} {w : List Token}
    {parts : List (Reading Stmt)} (hword : word.kind = .classWord)
    (hname : name.kind = .identifier) (hopening : opening.kind = .openBrace)
    (hparts : ∀ part ∈ parts, Statement ending .function part.1 part.2)
    (hreads : ∀ part ∈ parts, ReadsStatement .function part.1 part.2) (hw : Sequence parts w)
    (hclosing : closing.kind = .closeBrace) :
    ReadsStatement .statement (word :: name :: opening :: w ++ [closing])
      (.classDef name.value (parts.map Prod.snd) name) := by
  intro n hn rest _
  simp only [List.length_append, List.length_cons, List.length_nil] at hn
  have htakes : ∀ part ∈ parts, ∃ t v, part.1 = t :: v ∧ t.kind.opens = true ∧
      TakesStatement (member (statement n) n t) part := by
    intro part hpart
    have hlength := hw.length_le part hpart
    obtain ⟨t, v, hv, ht⟩ := (hparts part hpart).opens
    rw [Form.Opens] at ht
    refine ⟨t, v, hv, by rw [ht]; rfl, ?_⟩
    rw [member, if_pos ht]
    exact hreads part hpart n (by omega)
  have hmembers := (sequence_complete (members_succ (statement n) n) (fun _ h => h)
    (.inl hclosing) hw htakes (n := n) (by omega) rest).1
  simp only [List.cons_append, List.append_assoc, List.nil_append, statement, statementWith,
    peek_bind, hword, advance_bind, classDefinition, expect_bind hname, expect_bind hopening,
    bind_of_ok hmembers, expect_bind hclosing]
  rfl

theorem stops_semicolon {semicolon : Token} (h : semicolon.kind = .semicolon)
    (rest : List Token) : Stops .assignment (semicolon :: rest) :=
  stops_cons (by simp [h, Token.Kind.joint])

theorem reads_return {word semicolon : Token} {w : List Token} {value : Expr}
    (hword : word.kind = .returnWord) (hw : Optional w value)
    (hsemicolon : semicolon.kind = .semicolon) :
    ReadsStatement .statement (word :: w ++ [semicolon]) (.ret value word) := by
  intro n hn rest _
  simp only [List.length_append, List.length_cons, List.length_nil] at hn
  simp only [List.cons_append, List.append_assoc, List.nil_append, statement, statementWith,
    peek_bind, hword, advance_bind, returned]
  cases hw with
  | none =>
    simp only [List.nil_append, peek_bind, hsemicolon, true_or, if_true, pure_bind,
      accept_bind_of_eq hsemicolon]
    rfl
  | some he =>
    have hread := expression_complete he (n := n + 1) (by omega) (stops_semicolon hsemicolon rest)
    obtain ⟨t, v, rfl, hbegins, -⟩ := he.begins
    have ht : ¬ (t.kind = .semicolon ∨ t.kind = .closeBrace ∨ t.kind = .endOfInput) := by
      rintro (h | h | h) <;> simp [h, Token.Kind.begins] at hbegins
    simp only [List.cons_append] at hread ⊢
    simp only [peek_bind, if_neg ht, bind_of_ok hread, accept_bind_of_eq hsemicolon]
    rfl

theorem reads_expression {semicolon : Token} {w : List Token} {e : Expr}
    (he : Expression .assignment (t :: w) e) (hsemicolon : semicolon.kind = .semicolon) :
    ReadsStatement .statement (t :: w ++ [semicolon]) (.expr e t) := by
  intro n hn rest _
  simp only [List.length_append, List.length_cons, List.length_nil] at hn
  have hread := expression_complete he (n := n + 1) (by rw [List.length_cons]; omega)
    (stops_semicolon hsemicolon rest)
  obtain ⟨_, _, hcons, hbegins, -⟩ := he.begins
  obtain ⟨rfl, rfl⟩ := List.cons.inj hcons
  simp only [List.cons_append, List.append_assoc, List.nil_append] at hread ⊢
  rw [statement, statementWith_of_begins hbegins, expressionStatement, bind_of_ok hread,
    accept_bind_of_eq hsemicolon]
  rfl

theorem stops_block {parts : List (Reading Stmt)} {w : List Token} (hw : Block parts w)
    (rest : List Token) : Stops .assignment (w ++ rest) := by
  cases hw with
  | intro hopening _ _ => exact stops_cons (by simp [hopening, Token.Kind.joint])

/-- A condition ends where its block begins. -/
theorem condition_complete {w w' : List Token} {condition : Expr} {parts : List (Reading Stmt)}
    (hw : Expression .assignment w condition) (hw' : Block parts w') {n : Nat}
    (hn : w.length ≤ n) (rest : List Token) :
    expression (n + 1) (w ++ (w' ++ rest)) = .ok (condition, w' ++ rest) :=
  expression_complete hw (by omega) (stops_block hw' rest)

theorem reads_while {word : Token} {w w' : List Token} {condition : Expr}
    {parts : List (Reading Stmt)} (hword : word.kind = .whileWord)
    (hw : Expression .assignment w condition)
    (hparts : ∀ part ∈ parts, Statement ending .statement part.1 part.2)
    (hreads : ∀ part ∈ parts, ReadsStatement .statement part.1 part.2) (hw' : Block parts w') :
    ReadsStatement .statement (word :: w ++ w')
      (.whileLoop condition (parts.map Prod.snd) word) := by
  intro n hn rest _
  simp only [List.length_append, List.length_cons] at hn
  have hcondition := condition_complete hw hw' (n := n) (by omega) rest
  have hbody := block_read hw' hparts hreads (n := n) (by omega) rest
  simp only [List.cons_append, List.append_assoc, statement, statementWith, peek_bind, hword,
    advance_bind, whileLoop, bind_of_ok hcondition, bind_of_ok hbody]
  rfl

theorem initializer_complete {w : List Token} {init : Stmt} (hw : Initializer w init)
    {semicolon : Token} (hsemicolon : semicolon.kind = .semicolon) {n : Nat}
    (hn : w.length ≤ n) (rest : List Token) :
    initializer (expression (n + 1)) (w ++ semicolon :: rest) = .ok (init, semicolon :: rest) := by
  cases hw with
  | none =>
    rw [initializer, List.nil_append, peek_bind, if_pos hsemicolon]
    rfl
  | @some t w e he =>
    have hread := expression_complete he (n := n + 1) (by omega) (stops_semicolon hsemicolon rest)
    obtain ⟨_, _, hcons, hbegins, -⟩ := he.begins
    obtain ⟨rfl, rfl⟩ := List.cons.inj hcons
    have ht : t.kind ≠ .semicolon := fun h => by simp [h, Token.Kind.begins] at hbegins
    rw [List.cons_append] at hread ⊢
    rw [initializer, peek_bind, if_neg ht, bind_of_ok hread]
    rfl

theorem reads_for {word opening first second closing : Token} {init : Stmt}
    {w w' w'' body : List Token} {condition post : Expr} {parts : List (Reading Stmt)}
    (hword : word.kind = .forWord) (hopening : opening.kind = .openParen)
    (hw : Initializer w init) (hfirst : first.kind = .semicolon)
    (hw' : Expression .assignment w' condition) (hsecond : second.kind = .semicolon)
    (hw'' : Optional w'' post) (hclosing : closing.kind = .closeParen)
    (hparts : ∀ part ∈ parts, Statement ending .statement part.1 part.2)
    (hreads : ∀ part ∈ parts, ReadsStatement .statement part.1 part.2) (hbody : Block parts body) :
    ReadsStatement .statement
      (word :: opening :: w ++ first :: w' ++ second :: w'' ++ closing :: body)
      (.forLoop init condition post (parts.map Prod.snd) word) := by
  intro n hn rest _
  simp only [List.length_append, List.length_cons] at hn
  have hinit := initializer_complete hw hfirst (n := n) (by omega)
    (w' ++ second :: (w'' ++ closing :: (body ++ rest)))
  have hcondition := expression_complete hw' (n := n + 1) (by omega)
    (stops_semicolon hsecond (w'' ++ closing :: (body ++ rest)))
  have hblock := block_read hbody hparts hreads (n := n) (by omega) rest
  obtain ⟨t, v, rfl, hbegins, -⟩ := hw'.begins
  have ht : t.kind ≠ .semicolon := fun h => by simp [h, Token.Kind.begins] at hbegins
  simp only [List.cons_append] at hinit hcondition
  simp only [List.cons_append, List.append_assoc, statement, statementWith, peek_bind, hword,
    advance_bind, forLoop, expect_bind hopening, bind_of_ok hinit, expect_bind hfirst, if_neg ht,
    bind_of_ok hcondition, expect_bind hsecond]
  cases hw'' with
  | none =>
    simp only [List.nil_append, peek_bind, hclosing, if_true, pure_bind, expect_bind hclosing,
      bind_of_ok hblock]
    rfl
  | some he =>
    have hstops : Stops .assignment (closing :: (body ++ rest)) :=
      stops_cons (by simp [hclosing, Token.Kind.joint])
    have hpost := expression_complete he (n := n + 1) (by omega) hstops
    obtain ⟨t', v', rfl, hbegins', -⟩ := he.begins
    have ht' : t'.kind ≠ .closeParen := fun h => by simp [h, Token.Kind.begins] at hbegins'
    simp only [List.cons_append] at hpost ⊢
    simp only [peek_bind, if_neg ht', bind_of_ok hpost, expect_bind hclosing, bind_of_ok hblock]
    rfl

/-- What may follow the block of a condition: another condition, a block or nothing. -/
def alternatives (expr : Parser Expr) (stmt : Parser Stmt) (n m : Nat)
    (build : Bool → List Stmt → Stmt) : Parser Stmt := do
  match (← peek).kind with
  | .elseifWord => do
    let next ← conditional expr stmt n m
    return build true [next]
  | .elseWord => do
    let _ ← advance
    if (← peek).kind = .ifWord then
      let next ← conditional expr stmt n m
      return build true [next]
    else
      let elseBody ← block stmt n
      return build true elseBody
  | _ => return build false []

theorem conditional_succ (expr : Parser Expr) (stmt : Parser Stmt) (n m : Nat) :
    conditional expr stmt n (m + 1) = (do
      let t ← advance
      let condition ← expr
      let thenBody ← block stmt n
      alternatives expr stmt n m fun hasElse elseBody =>
        Stmt.branch condition thenBody hasElse elseBody t) :=
  rfl

section

variable {word : Token} {w w' : List Token} {condition : Expr} {parts : List (Reading Stmt)}
  {kind : Token.Kind} (hw : Expression .assignment w condition)
  (hparts : ∀ part ∈ parts, Statement ending .statement part.1 part.2)
  (hreads : ∀ part ∈ parts, ReadsStatement .statement part.1 part.2) (hw' : Block parts w')
include hw hparts hreads hw'

theorem conditional_complete {n m : Nat} (hn : (word :: w ++ w').length ≤ n)
    (rest : List Token) :
    conditional (expression (n + 1)) (statement n) n (m + 1) (word :: w ++ w' ++ rest) =
      alternatives (expression (n + 1)) (statement n) n m (fun hasElse elseBody =>
        .branch condition (parts.map Prod.snd) hasElse elseBody word) rest := by
  simp only [List.length_append, List.length_cons] at hn
  have hcondition := condition_complete hw hw' (n := n) (by omega) rest
  have hbody := block_read hw' hparts hreads (n := n) (by omega) rest
  simp only [List.cons_append, List.append_assoc, conditional_succ, advance_bind,
    bind_of_ok hcondition, bind_of_ok hbody]

theorem reads_single : ReadsStatement (.conditional kind) (word :: w ++ w')
    (.branch condition (parts.map Prod.snd) false [] word) := by
  intro n m hn hm rest hrest
  obtain ⟨m, rfl⟩ : ∃ k, m = k + 1 := ⟨m - 1, by simp at hm; omega⟩
  obtain ⟨t, rest, rfl, helse, helseif⟩ := hrest
  rw [conditional_complete hw hparts hreads hw' hn, alternatives, peek_bind]
  cases hkind : t.kind <;> first | contradiction | rfl

theorem reads_otherwise {els : Token} {w'' : List Token} {others : List (Reading Stmt)}
    (hels : els.kind = .elseWord)
    (hothers : ∀ part ∈ others, Statement ending .statement part.1 part.2)
    (hreads' : ∀ part ∈ others, ReadsStatement .statement part.1 part.2)
    (hw'' : Block others w'') :
    ReadsStatement (.conditional kind) (word :: w ++ w' ++ els :: w'')
      (.branch condition (parts.map Prod.snd) true (others.map Prod.snd) word) := by
  intro n m hn hm rest _
  have hlength := List.length_append ▸ hn
  rw [List.length_cons] at hlength
  obtain ⟨m, rfl⟩ : ∃ k, m = k + 1 := ⟨m - 1, by simp at hm; omega⟩
  have hblock := block_read hw'' hothers hreads' (n := n) (by omega) rest
  obtain ⟨t, v, hv, ht⟩ : ∃ t v, w'' ++ rest = t :: v ∧ t.kind ≠ .ifWord := by
    cases hw'' with
    | intro hopening _ _ => exact ⟨_, _, rfl, by simp [hopening]⟩
  rw [List.append_assoc, conditional_complete hw hparts hreads hw' (by omega), List.cons_append,
    hv]
  simp only [alternatives, peek_bind, hels, advance_bind, if_neg ht]
  rw [← hv, bind_of_ok hblock]
  rfl

/-- The next condition is read by the same parser, from the word that announces it. -/
theorem reads_elseif {w'' : List Token} {next : Stmt}
    (hw'' : Statement ending (.conditional .elseifWord) w'' next)
    (hnext : ReadsStatement (.conditional .elseifWord) w'' next) :
    ReadsStatement (.conditional kind) (word :: w ++ w' ++ w'')
      (.branch condition (parts.map Prod.snd) true [next] word) := by
  intro n m hn hm rest hrest
  have hlength := List.length_append ▸ hn
  have hlength' := List.length_append ▸ hm
  simp only [List.length_append, List.length_cons] at hlength'
  obtain ⟨m, rfl⟩ : ∃ k, m = k + 1 := ⟨m - 1, by omega⟩
  have hread := hnext n m (by omega) (by omega) rest hrest
  rw [List.append_assoc, conditional_complete hw hparts hreads hw' (by omega)]
  obtain ⟨t, v, rfl, ht⟩ := hw''.opens
  simp only [List.cons_append] at hread ⊢
  simp only [alternatives, peek_bind, show t.kind = .elseifWord from ht, bind_of_ok hread]
  rfl

theorem reads_elseIf {els : Token} {w'' : List Token} {next : Stmt} (hels : els.kind = .elseWord)
    (hw'' : Statement ending (.conditional .ifWord) w'' next)
    (hnext : ReadsStatement (.conditional .ifWord) w'' next) :
    ReadsStatement (.conditional kind) (word :: w ++ w' ++ els :: w'')
      (.branch condition (parts.map Prod.snd) true [next] word) := by
  intro n m hn hm rest hrest
  have hlength := List.length_append ▸ hn
  have hlength' := List.length_append ▸ hm
  simp only [List.length_append, List.length_cons] at hlength hlength'
  obtain ⟨m, rfl⟩ : ∃ k, m = k + 1 := ⟨m - 1, by omega⟩
  have hread := hnext n m (by omega) (by omega) rest hrest
  rw [List.append_assoc, conditional_complete hw hparts hreads hw' (by simp; omega)]
  obtain ⟨t, v, rfl, ht⟩ := hw''.opens
  simp only [List.cons_append] at hread ⊢
  simp only [alternatives, peek_bind, hels, advance_bind, if_pos (show t.kind = .ifWord from ht),
    bind_of_ok hread]
  rfl

end

theorem reads_branch {w : List Token} {s : Stmt} (hw : Statement ending (.conditional .ifWord) w s)
    (h : ReadsStatement (.conditional .ifWord) w s) : ReadsStatement .statement w s := by
  intro n hn rest hrest
  have hread := h n n hn hn rest hrest
  obtain ⟨t, v, rfl, ht⟩ := hw.opens
  simp only [List.cons_append] at hread ⊢
  simp only [statement, statementWith, peek_bind, show t.kind = .ifWord from ht]
  exact hread

end

theorem reads_of_statement {form : Form} {w : List Token} {s : Stmt}
    (h : Statement Terminator form w s) : ReadsStatement form w s := by
  induction h with
  | function _ hname hopening hw hclosing hparts hw' ih =>
    exact reads_function hname hopening hw hclosing hparts ih hw'
  | func hw ih => exact reads_func hw ih
  | classDef hword hname hopening hparts hw hclosing ih =>
    exact reads_class hword hname hopening hparts ih hw hclosing
  | ret hword hw hend =>
    obtain ⟨hsemicolon⟩ := hend
    exact reads_return hword hw hsemicolon
  | expr he hend =>
    obtain ⟨hsemicolon⟩ := hend
    exact reads_expression he hsemicolon
  | whileLoop hword hw hparts hw' ih => exact reads_while hword hw hparts ih hw'
  | forLoop hword hopening hw hfirst hw' hsecond hw'' hclosing hparts hbody ih =>
    exact reads_for hword hopening hw hfirst hw' hsecond hw'' hclosing hparts ih hbody
  | branch hw ih => exact reads_branch hw ih
  | single _ hw hparts hw' ih => exact reads_single hw hparts ih hw'
  | otherwise _ hw hparts hw' hels hothers hw'' ih ihothers =>
    exact reads_otherwise hw hparts ih hw' hels hothers ihothers hw''
  | elseIf _ hw hparts hw' hels hnext ih ihnext =>
    exact reads_elseIf hw hparts ih hw' hels hnext ihnext
  | elseif _ hw hparts hw' hnext ih ihnext => exact reads_elseif hw hparts ih hw' hnext ihnext

end Parser

/-- A word in which every expression statement and every `return` has its semicolon parses, before
a token for the end of the input, to the body that the grammar gives it. -/
theorem terminated_program_parses {w : List Token} {body : List Stmt}
    (h : Grammar.Body Grammar.Terminator w body) {last : Token}
    (hlast : last.kind = .endOfInput) :
    Program.parse (w ++ [last]) = .ok ⟨(w ++ [last]).headD {}, body⟩ := by
  obtain ⟨parts, hparts, hw, rfl⟩ := h
  have hcontinued : Program.continued (w ++ [last]) = w ++ [last] :=
    Program.continued_of_ended List.getLast?_concat hlast
  have htakes : ∀ part ∈ parts, ∃ t v, part.1 = t :: v ∧ t.kind.opens = true ∧
      Parser.TakesStatement (Parser.statement ((w ++ [last]).length + 1)) part := by
    intro part hpart
    have hlength := hw.length_le part hpart
    obtain ⟨t, v, hv, ht⟩ := (hparts part hpart).opens
    refine ⟨t, v, hv, ht, (Parser.reads_of_statement (hparts part hpart)).takes ?_⟩
    rw [List.length_append]
    omega
  have hprogram := (Parser.sequence_complete (Parser.program_succ _) (fun _ h => .inr h) hlast hw
    htakes (n := (w ++ [last]).length + 1) (by rw [List.length_append]; omega) []).1
  simp only [Program.parse, hcontinued, hprogram]

/-- A class whose method repeats `[(x),];` in a loop, two semicolons more than needed after the
class, and a `return` without a value. -/
theorem class_with_loop_parses :
    let t (kind : Token.Kind) : Token := { kind }
    let x := Expr.ident [] (t .identifier)
    let w := [.classWord, .identifier, .openBrace, .funcWord, .identifier, .openParen,
      .identifier, .closeParen, .openBrace, .whileWord, .identifier, .openBrace, .openBracket,
      .openParen, .identifier, .closeParen, .comma, .closeBracket, .semicolon, .closeBrace,
      .closeBrace, .closeBrace, .semicolon, .semicolon, .returnWord, .semicolon].map t
    let item := Stmt.expr (.array [x] (t .openBracket)) (t .openBracket)
    let method := Stmt.func [] [[]] [.whileLoop x [item] (t .whileWord)] (t .identifier)
    let body := [.classDef [] [method] (t .identifier), .ret .hole (t .returnWord)]
    Grammar.Body Grammar.Terminator w body ∧
      Program.parse (w ++ [t .endOfInput]) = .ok ⟨t .classWord, body⟩ := by
  intro t x w item method body
  have hx : Expression .assignment [t .identifier] x :=
    Expression.loosen (.ident rfl) (by decide : _ ≤ Level.primary.rank)
  have hgroup : Expression .assignment (t .openParen :: [t .identifier] ++ [t .closeParen]) x :=
    Expression.loosen (.group rfl hx rfl) (by decide : _ ≤ Level.primary.rank)
  have hcomma : (t .comma).kind = .comma := rfl
  have harray : Expression .assignment (t .openBracket :: _ ++ [t .closeBracket]) _ :=
    Expression.loosen
      (.array rfl (List.forall_mem_singleton.mpr hgroup) (.cons hcomma .nil) rfl)
      (by decide : _ ≤ Level.primary.rank)
  have hitem : Statement Terminator .statement (_ ++ [t .semicolon]) item :=
    .expr harray (.intro rfl)
  have hloop : Statement Terminator .statement (t .whileWord :: [t .identifier] ++ _) _ :=
    .whileLoop rfl hx (List.forall_mem_singleton.mpr hitem)
      (.intro (rfl : (t .openBrace).kind = _) (.cons .nil) (rfl : (t .closeBrace).kind = _))
  have hmethod : Statement Terminator .function
      (t .funcWord :: t .identifier :: t .openParen :: [t .identifier] ++ t .closeParen :: _)
      method :=
    .function rfl rfl rfl (.some (.last rfl) (by simp)) rfl
      (List.forall_mem_singleton.mpr hloop)
      (.intro (rfl : (t .openBrace).kind = _) (.cons .nil) (rfl : (t .closeBrace).kind = _))
  have hclass : Statement Terminator .statement
      (t .classWord :: t .identifier :: t .openBrace :: _ ++ [t .closeBrace]) _ :=
    .classDef rfl rfl rfl (List.forall_mem_singleton.mpr hmethod) (.cons .nil) rfl
  have hret : Statement Terminator .statement (t .returnWord :: [] ++ [t .semicolon]) _ :=
    .ret rfl .none (.intro rfl)
  have hsemicolon : (t .semicolon).kind = .semicolon := rfl
  have hbody : Grammar.Body Grammar.Terminator w body :=
    ⟨[(_, _), (_, _)], List.forall_mem_cons.mpr ⟨hclass, List.forall_mem_singleton.mpr hret⟩,
      .cons (.semicolon hsemicolon (.semicolon hsemicolon (.cons .nil))), rfl⟩
  exact ⟨hbody, terminated_program_parses hbody rfl⟩

end Script
