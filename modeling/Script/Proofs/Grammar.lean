import Script.Number.Reader
import Script.Syntax

/-!
# The grammar

What a word of tokens can stand for, said by rules and without a parser. `Expression` relates a
level of precedence, a word and a tree; `Statement` does so for statements. Each rule uses up
its word from left to right, so a tree accounts for every token of its word once and in order.

A binary operator takes its own level on the left and the next tighter one on the right, which
makes it group to the left; assignments and minus signs go down on the right. A rule with a list
of parts has a premise about every part and one that says how the parts are laid out, which
keeps each relation a single inductive predicate.
-/

namespace Script

/-- How tightly an expression holds together, from the loosest. A `callable` is an operand that
does not end in the name of a member: a parenthesis after such a name makes a method call. -/
inductive Grammar.Level where
  | assignment | equality | comparison | additive | multiplicative | unary
  | operand | callable | primary
  deriving DecidableEq

/-- The next tighter level. -/
def Grammar.Level.inner : Grammar.Level → Grammar.Level
  | .assignment => .equality
  | .equality => .comparison
  | .comparison => .additive
  | .additive => .multiplicative
  | .multiplicative => .unary
  | .unary => .operand
  | .operand => .callable
  | .callable | .primary => .primary

/-- The token that spells an operator. -/
def BinaryOp.kind : BinaryOp → Token.Kind
  | .add => .plus
  | .subtract => .minus
  | .multiply => .star
  | .divide => .slash
  | .equal => .equal
  | .notEqual => .notEqual
  | .less => .less
  | .lessEqual => .lessEqual
  | .greater => .greater
  | .greaterEqual => .greaterEqual

theorem BinaryOp.kind_ne_endOfInput (op : BinaryOp) : op.kind ≠ .endOfInput := by
  cases op <;> decide

/-- The level of the expressions that an operator forms. -/
def BinaryOp.level : BinaryOp → Grammar.Level
  | .add | .subtract => .additive
  | .multiply | .divide => .multiplicative
  | .equal | .notEqual => .equality
  | .less | .lessEqual | .greater | .greaterEqual => .comparison

namespace Grammar

/-- A word and the tree it stands for. -/
abbrev Reading (α : Type) := List Token × α

/-- Trees whose words, one for each, are laid out in one word. -/
def Row {α : Type} (layout : List (Reading α) → List Token → Prop)
    (spells : List Token → α → Prop) (w : List Token) (trees : List α) : Prop :=
  ∃ parts, (∀ part ∈ parts, spells part.1 part.2) ∧ layout parts w ∧
    parts.map Prod.snd = trees

/-! ## Expressions -/

/-- Parts in a row with commas between them; one more may follow the last part. -/
inductive Listed : List (Reading Expr) → List Token → Prop
  | nil : Listed [] []
  | last {w e} : Listed [(w, e)] w
  | cons {w e parts w'} {comma : Token} : comma.kind = .comma → Listed parts w' →
      Listed ((w, e) :: parts) (w ++ comma :: w')

/-- Parts in parentheses. -/
inductive Arguments : List (Reading Expr) → List Token → Prop
  | intro {parts w} {opening closing : Token} : opening.kind = .openParen → Listed parts w →
      closing.kind = .closeParen → Arguments parts (opening :: w ++ [closing])

/-- A word spells an expression of a level. -/
inductive Expression : Level → List Token → Expr → Prop
  | number {t : Token} : t.kind = .number →
      Expression .primary [t] (.number (Number.ofText t.value) t)
  | string {t : Token} : t.kind = .string → Expression .primary [t] (.string t.value t)
  | boolean {t : Token} : t.kind = .boolean →
      Expression .primary [t] (.boolean (t.value == "true") t)
  | null {t : Token} : t.kind = .null → Expression .primary [t] (.null t)
  | ident {t : Token} : t.kind = .identifier → Expression .primary [t] (.ident t.value t)
  | array {opening closing : Token} {parts w} : opening.kind = .openBracket →
      (∀ part ∈ parts, Expression .assignment part.1 part.2) → Listed parts w →
      closing.kind = .closeBracket →
      Expression .primary (opening :: w ++ [closing]) (.array (parts.map Prod.snd) opening)
  | group {opening closing : Token} {w e} : opening.kind = .openParen →
      Expression .assignment w e → closing.kind = .closeParen →
      Expression .primary (opening :: w ++ [closing]) e
  | construct {word name : Token} {parts w} : word.kind = .newWord → name.kind = .identifier →
      (∀ part ∈ parts, Expression .assignment part.1 part.2) → Arguments parts w →
      Expression .primary (word :: name :: w)
        (.construct name.value (parts.map Prod.snd) word)
  | call {callee w parts w'} : Expression .callable w callee →
      (∀ part ∈ parts, Expression .assignment part.1 part.2) → Arguments parts w' →
      Expression .callable (w ++ w') (.call callee (parts.map Prod.snd) callee.token)
  | method {object w parts w'} {dot name : Token} : Expression .operand w object →
      dot.kind = .dot → name.kind = .identifier →
      (∀ part ∈ parts, Expression .assignment part.1 part.2) → Arguments parts w' →
      Expression .callable (w ++ dot :: name :: w')
        (.method object name.value (parts.map Prod.snd) name)
  | index {object w position w'} {opening closing : Token} : Expression .operand w object →
      opening.kind = .openBracket → Expression .assignment w' position →
      closing.kind = .closeBracket →
      Expression .callable (w ++ opening :: w' ++ [closing]) (.index object position opening)
  | member {object w} {dot name : Token} : Expression .operand w object → dot.kind = .dot →
      name.kind = .identifier →
      Expression .operand (w ++ [dot, name]) (.member object name.value name)
  | negate {minus : Token} {w e} : minus.kind = .minus → Expression .unary w e →
      Expression .unary (minus :: w) (.negate e minus)
  | binary {level op left w right w'} {t : Token} : op.level = level →
      Expression level w left → t.kind = op.kind → Expression level.inner w' right →
      Expression level (w ++ t :: w') (.binary op left right t)
  | assign {target w value w'} {t : Token} : Expression .equality w target →
      target.isTarget = true → t.kind = .assign → Expression .assignment w' value →
      Expression .assignment (w ++ t :: w') (.assign target value t)
  | inner {level w e} : Expression level.inner w e → Expression level w e

/-! ## Statements -/

/-- An expression, or nothing in its place. -/
inductive Optional : List Token → Expr → Prop
  | none : Optional [] .hole
  | some {w e} : Expression .assignment w e → Optional w e

/-- The first part of a `for` header. -/
inductive Initializer : List Token → Stmt → Prop
  | none : Initializer [] .hole
  | some {t w e} : Expression .assignment (t :: w) e → Initializer (t :: w) (.expr e t)

/-- The end of a statement that a semicolon may mark. -/
inductive Ending : List Token → Prop
  | none : Ending []
  | semicolon {t : Token} : t.kind = .semicolon → Ending [t]

/-- One or more names with commas between them. -/
inductive Names : List Token → List Text → Prop
  | last {name : Token} : name.kind = .identifier → Names [name] [name.value]
  | cons {name comma : Token} {w names} : name.kind = .identifier → comma.kind = .comma →
      Names w names → Names (name :: comma :: w) (name.value :: names)

/-- Names of parameters, all different. -/
inductive Parameters : List Token → List Text → Prop
  | none : Parameters [] []
  | some {w names} : Names w names → names.Nodup → Parameters w names

/-- Parts in a row with any number of semicolons before, between and after them. -/
inductive Sequence : List (Reading Stmt) → List Token → Prop
  | nil : Sequence [] []
  | semicolon {t : Token} {parts w} : t.kind = .semicolon → Sequence parts w →
      Sequence parts (t :: w)
  | cons {w s parts w'} : Sequence parts w' → Sequence ((w, s) :: parts) (w ++ w')

/-- Parts in braces. -/
inductive Block : List (Reading Stmt) → List Token → Prop
  | intro {parts w} {opening closing : Token} : opening.kind = .openBrace → Sequence parts w →
      closing.kind = .closeBrace → Block parts (opening :: w ++ [closing])

/-- What a statement is read as: any statement, a function, or a condition that a given word
announces. -/
inductive Form where
  | statement
  | function
  | conditional (word : Token.Kind)

/-- A word spells a statement, where `ending` says what may stand at the end of an expression
statement and of a `return`. A further condition after an `else`, in one word or in two, is the
only statement of the branch it stands for. -/
inductive Statement (ending : List Token → Prop) : Form → List Token → Stmt → Prop
  | function {word name opening closing : Token} {w params parts w'} : word.kind = .funcWord →
      name.kind = .identifier → opening.kind = .openParen → Parameters w params →
      closing.kind = .closeParen → (∀ part ∈ parts, Statement ending .statement part.1 part.2) →
      Block parts w' →
      Statement ending .function (word :: name :: opening :: w ++ closing :: w')
        (.func name.value params (parts.map Prod.snd) name)
  | func {w s} : Statement ending .function w s → Statement ending .statement w s
  | classDef {word name opening closing : Token} {parts w} : word.kind = .classWord →
      name.kind = .identifier → opening.kind = .openBrace →
      (∀ part ∈ parts, Statement ending .function part.1 part.2) → Sequence parts w →
      closing.kind = .closeBrace →
      Statement ending .statement (word :: name :: opening :: w ++ [closing])
        (.classDef name.value (parts.map Prod.snd) name)
  | ret {word : Token} {w value w'} : word.kind = .returnWord → Optional w value →
      ending w' → Statement ending .statement (word :: w ++ w') (.ret value word)
  | expr {t w e w'} : Expression .assignment (t :: w) e → ending w' →
      Statement ending .statement (t :: w ++ w') (.expr e t)
  | whileLoop {word : Token} {w condition parts w'} : word.kind = .whileWord →
      Expression .assignment w condition →
      (∀ part ∈ parts, Statement ending .statement part.1 part.2) → Block parts w' →
      Statement ending .statement (word :: w ++ w')
        (.whileLoop condition (parts.map Prod.snd) word)
  | forLoop {word opening first second closing : Token}
      {init w condition w' post w'' parts body} : word.kind = .forWord →
      opening.kind = .openParen → Initializer w init → first.kind = .semicolon →
      Expression .assignment w' condition → second.kind = .semicolon → Optional w'' post →
      closing.kind = .closeParen →
      (∀ part ∈ parts, Statement ending .statement part.1 part.2) → Block parts body →
      Statement ending .statement
        (word :: opening :: w ++ first :: w' ++ second :: w'' ++ closing :: body)
        (.forLoop init condition post (parts.map Prod.snd) word)
  | branch {w s} : Statement ending (.conditional .ifWord) w s →
      Statement ending .statement w s
  | single {kind} {word : Token} {w condition parts w'} : word.kind = kind →
      Expression .assignment w condition →
      (∀ part ∈ parts, Statement ending .statement part.1 part.2) → Block parts w' →
      Statement ending (.conditional kind) (word :: w ++ w')
        (.branch condition (parts.map Prod.snd) false [] word)
  | otherwise {kind} {word els : Token} {w condition parts w' others w''} : word.kind = kind →
      Expression .assignment w condition →
      (∀ part ∈ parts, Statement ending .statement part.1 part.2) → Block parts w' →
      els.kind = .elseWord →
      (∀ part ∈ others, Statement ending .statement part.1 part.2) → Block others w'' →
      Statement ending (.conditional kind) (word :: w ++ w' ++ els :: w'')
        (.branch condition (parts.map Prod.snd) true (others.map Prod.snd) word)
  | elseIf {kind} {word els : Token} {w condition parts w' next w''} : word.kind = kind →
      Expression .assignment w condition →
      (∀ part ∈ parts, Statement ending .statement part.1 part.2) → Block parts w' →
      els.kind = .elseWord → Statement ending (.conditional .ifWord) w'' next →
      Statement ending (.conditional kind) (word :: w ++ w' ++ els :: w'')
        (.branch condition (parts.map Prod.snd) true [next] word)
  | elseif {kind} {word : Token} {w condition parts w' next w''} : word.kind = kind →
      Expression .assignment w condition →
      (∀ part ∈ parts, Statement ending .statement part.1 part.2) → Block parts w' →
      Statement ending (.conditional .elseifWord) w'' next →
      Statement ending (.conditional kind) (word :: w ++ w' ++ w'')
        (.branch condition (parts.map Prod.snd) true [next] word)

/-- A word spells the statements of a program. -/
def Body (ending : List Token → Prop) : List Token → List Stmt → Prop :=
  Row Sequence (Statement ending .statement)

/-! ## Words in general -/

theorem Expression.ne_nil {level : Level} {w : List Token} {e : Expr}
    (h : Expression level w e) : w ≠ [] := by
  induction h with
  | inner _ ih => exact ih
  | call _ _ _ ih => simp [ih]
  | _ => simp

/-- No part is longer than the list it stands in. -/
theorem Listed.length_le {parts : List (Reading Expr)} {w : List Token} (h : Listed parts w) :
    ∀ part ∈ parts, part.1.length ≤ w.length := by
  induction h with
  | nil => simp
  | last => simp
  | cons _ _ ih =>
    refine List.forall_mem_cons.mpr ⟨by simp, fun part hpart => ?_⟩
    have := ih part hpart
    rw [List.length_append, List.length_cons]
    omega

theorem Arguments.ne_nil {parts : List (Reading Expr)} {w : List Token} (h : Arguments parts w) :
    w ≠ [] := by
  cases h
  simp

theorem Sequence.semicolons {parts : List (Reading Stmt)} {w w' : List Token}
    (hw : ∀ t ∈ w, t.kind = .semicolon) (h : Sequence parts w') : Sequence parts (w ++ w') := by
  induction w with
  | nil => exact h
  | cons t w ih =>
    obtain ⟨ht, hw⟩ := List.forall_mem_cons.mp hw
    exact .semicolon ht (ih hw)

section

variable {spells : List Token → Stmt → Prop} {w w' w'' : List Token}

/-- Nothing but semicolons. -/
theorem row_nil (hw : ∀ t ∈ w, t.kind = .semicolon) : Row Sequence spells w [] :=
  ⟨[], by simp, by simpa using Sequence.nil.semicolons hw, rfl⟩

/-- Semicolons, a statement and the statements after it. -/
theorem row_cons (hw : ∀ t ∈ w, t.kind = .semicolon) {s : Stmt} (hs : spells w' s)
    {body : List Stmt} (hbody : Row Sequence spells w'' body) :
    Row Sequence spells (w ++ (w' ++ w'')) (s :: body) := by
  obtain ⟨parts, hparts, hw'', rfl⟩ := hbody
  refine ⟨(w', s) :: parts, ?_, hw''.cons.semicolons hw, rfl⟩
  exact List.forall_mem_cons.mpr ⟨hs, hparts⟩

end

/-! ## The end of the input

No word holds a token for the end of the input, so a word ends before the first of them. -/

/-- None of the tokens marks the end of the input. -/
def Inside (w : List Token) : Prop :=
  ∀ t ∈ w, t.kind ≠ .endOfInput

@[simp] theorem inside_nil : Inside [] := by
  simp [Inside]

@[simp] theorem inside_cons {t : Token} {w : List Token} :
    Inside (t :: w) ↔ t.kind ≠ .endOfInput ∧ Inside w := by
  simp [Inside]

@[simp] theorem inside_append {w w' : List Token} :
    Inside (w ++ w') ↔ Inside w ∧ Inside w' := by
  simp [Inside, or_imp, forall_and]

theorem Listed.inside {parts : List (Reading Expr)} {w : List Token} (h : Listed parts w)
    (hparts : ∀ part ∈ parts, Inside part.1) : Inside w := by
  induction h with
  | nil => exact inside_nil
  | last => exact hparts _ (List.mem_singleton_self _)
  | cons hcomma _ ih =>
    obtain ⟨hw, hparts⟩ := List.forall_mem_cons.mp hparts
    simp [hw, hcomma, ih hparts]

theorem Arguments.inside {parts : List (Reading Expr)} {w : List Token} (h : Arguments parts w)
    (hparts : ∀ part ∈ parts, Inside part.1) : Inside w := by
  obtain ⟨hopening, hw, hclosing⟩ := h
  simp [hopening, hw.inside hparts, hclosing]

theorem Expression.inside {level : Level} {w : List Token} {e : Expr}
    (h : Expression level w e) : Inside w := by
  induction h with
  | number ht | string ht | boolean ht | null ht | ident ht => simp [ht]
  | array hopening _ hw hclosing ih => simp [hopening, hw.inside ih, hclosing]
  | group hopening _ hclosing ih => simp [hopening, ih, hclosing]
  | construct hword hname _ hw ih => simp [hword, hname, hw.inside ih]
  | call _ _ hw' ih ihparts => simp [ih, hw'.inside ihparts]
  | method _ hdot hname _ hw' ih ihparts => simp [ih, hdot, hname, hw'.inside ihparts]
  | index _ hopening _ hclosing ih ihposition => simp [ih, hopening, ihposition, hclosing]
  | member _ hdot hname ih => simp [ih, hdot, hname]
  | negate hminus _ ih => simp [hminus, ih]
  | binary _ _ ht _ ihleft ihright =>
    simp [ihleft, ht, BinaryOp.kind_ne_endOfInput, ihright]
  | assign _ _ ht _ ihtarget ihvalue => simp [ihtarget, ht, ihvalue]
  | inner _ ih => exact ih

theorem Optional.inside {w : List Token} {e : Expr} (h : Optional w e) : Inside w := by
  cases h with
  | none => exact inside_nil
  | some he => exact he.inside

theorem Initializer.inside {w : List Token} {s : Stmt} (h : Initializer w s) : Inside w := by
  cases h with
  | none => exact inside_nil
  | some he => exact he.inside

theorem Ending.inside {w : List Token} (h : Ending w) : Inside w := by
  cases h with
  | none => exact inside_nil
  | semicolon ht => simp [ht]

theorem Names.inside {w : List Token} {names : List Text} (h : Names w names) : Inside w := by
  induction h with
  | last hname => simp [hname]
  | cons hname hcomma _ ih => simp [hname, hcomma, ih]

theorem Parameters.inside {w : List Token} {names : List Text} (h : Parameters w names) :
    Inside w := by
  cases h with
  | none => exact inside_nil
  | some hw _ => exact hw.inside

theorem Sequence.inside {parts : List (Reading Stmt)} {w : List Token} (h : Sequence parts w)
    (hparts : ∀ part ∈ parts, Inside part.1) : Inside w := by
  induction h with
  | nil => exact inside_nil
  | semicolon ht _ ih => simp [ht, ih hparts]
  | cons _ ih =>
    obtain ⟨hw, hparts⟩ := List.forall_mem_cons.mp hparts
    simp [hw, ih hparts]

theorem Block.inside {parts : List (Reading Stmt)} {w : List Token} (h : Block parts w)
    (hparts : ∀ part ∈ parts, Inside part.1) : Inside w := by
  obtain ⟨hopening, hw, hclosing⟩ := h
  simp [hopening, hw.inside hparts, hclosing]

theorem Statement.inside {ending : List Token → Prop} (hending : ∀ w, ending w → Inside w)
    {form : Form} {w : List Token} {s : Stmt} (h : Statement ending form w s)
    (hform : form ≠ .conditional .endOfInput) : Inside w := by
  induction h with
  | function hword hname hopening hw hclosing _ hw' ih =>
    simp [hword, hname, hopening, hw.inside, hclosing, hw'.inside fun part h => ih part h nofun]
  | func _ ih => exact ih nofun
  | classDef hword hname hopening _ hw hclosing ih =>
    simp [hword, hname, hopening, hw.inside fun part h => ih part h nofun, hclosing]
  | ret hword hw hw' => simp [hword, hw.inside, hending _ hw']
  | expr he hw' => simpa [hending _ hw'] using he.inside
  | whileLoop hword hw _ hw' ih =>
    simp [hword, hw.inside, hw'.inside fun part h => ih part h nofun]
  | forLoop hword hopening hw hfirst hw' hsecond hw'' hclosing _ hbody ih =>
    simp [hword, hopening, hw.inside, hfirst, hw'.inside, hsecond, hw''.inside, hclosing,
      hbody.inside fun part h => ih part h nofun]
  | branch _ ih => exact ih nofun
  | single hword hw _ hw' ih =>
    have hkind := mt (congrArg Form.conditional) hform
    simp [hword, hkind, hw.inside, hw'.inside fun part h => ih part h nofun]
  | otherwise hword hw _ hw' hels _ hw'' ih ihothers =>
    have hkind := mt (congrArg Form.conditional) hform
    simp [hword, hkind, hw.inside, hw'.inside fun part h => ih part h nofun, hels,
      hw''.inside fun part h => ihothers part h nofun]
  | elseIf hword hw _ hw' hels _ ih ihnext =>
    have hkind := mt (congrArg Form.conditional) hform
    have hnext := ihnext (by simp)
    simp [hword, hkind, hw.inside, hw'.inside fun part h => ih part h nofun, hels, hnext]
  | elseif hword hw _ hw' _ ih ihnext =>
    have hkind := mt (congrArg Form.conditional) hform
    have hnext := ihnext (by simp)
    simp [hword, hkind, hw.inside, hw'.inside fun part h => ih part h nofun, hnext]

theorem Body.inside {ending : List Token → Prop} (hending : ∀ w, ending w → Inside w)
    {w : List Token} {body : List Stmt} (h : Body ending w body) : Inside w := by
  obtain ⟨parts, hparts, hw, -⟩ := h
  exact hw.inside fun part hpart => (hparts part hpart).inside hending nofun

end Grammar

end Script
