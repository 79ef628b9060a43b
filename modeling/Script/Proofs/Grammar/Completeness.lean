import Script.Proofs.Grammar.Soundness
import Mathlib.Logic.Function.Iterate

/-!
# Every expression of the grammar is read

With a count above the length of a word, the parser takes a word of the grammar off the front and
returns its tree, if what follows does not carry the expression on. A rule of the grammar builds
its tree from the left, as the loops of the parser do. So the statement for a level that groups to
the left is about a loop that is still running: `Resumes` says how many rounds are left at least.
-/

namespace Script

open Grammar

/-! ## Where a word begins and ends -/

/-- The tokens that can begin an expression. -/
def Token.Kind.begins : Token.Kind → Bool
  | .number | .string | .boolean | .null | .identifier | .openBracket | .openParen | .newWord
  | .minus => true
  | _ => false

/-- The level at which a token carries on an expression that stands before it. -/
def Token.Kind.joint : Token.Kind → Option Level
  | .assign => some .assignment
  | .equal | .notEqual => some .equality
  | .less | .lessEqual | .greater | .greaterEqual => some .comparison
  | .plus | .minus => some .additive
  | .star | .slash => some .multiplicative
  | .dot | .openBracket => some .operand
  | .openParen => some .callable
  | _ => none

/-- How tight a level is. -/
def Grammar.Level.rank : Level → Nat
  | .assignment => 0
  | .equality => 1
  | .comparison => 2
  | .additive => 3
  | .multiplicative => 4
  | .unary => 5
  | .operand => 6
  | .callable => 7
  | .primary => 8

theorem Grammar.Level.rank_le_inner (level : Level) : level.rank ≤ level.inner.rank := by
  cases level <;> decide

theorem BinaryOp.rank_lt_inner (op : BinaryOp) : op.level.rank < op.level.inner.rank := by
  cases op <;> decide

theorem BinaryOp.rank_le_operand (op : BinaryOp) : op.level.rank ≤ Level.operand.rank := by
  cases op <;> decide

theorem BinaryOp.rank_inner_le (op : BinaryOp) : op.level.inner.rank ≤ Level.unary.rank := by
  cases op <;> decide

theorem BinaryOp.joint_kind (op : BinaryOp) : op.kind.joint = some op.level := by
  cases op <;> rfl

namespace Grammar

/-- The tokens go on with one that does not carry on an expression of the level. -/
def Stops (level : Level) (tokens : List Token) : Prop :=
  ∃ t rest, tokens = t :: rest ∧ ∀ joint ∈ t.kind.joint, joint.rank < level.rank

theorem Stops.inner {level : Level} {tokens : List Token} (h : Stops level tokens) :
    Stops level.inner tokens := by
  obtain ⟨t, rest, rfl, ht⟩ := h
  exact ⟨t, rest, rfl, fun joint hjoint => (ht joint hjoint).trans_le level.rank_le_inner⟩

theorem Level.exists_iterate_inner {level level' : Level} (h : level.rank ≤ level'.rank) :
    ∃ n, Level.inner^[n] level = level' := by
  refine ⟨level'.rank - level.rank, ?_⟩
  revert h
  cases level <;> cases level' <;> decide

/-- An expression of a level is one of every looser level. -/
theorem Expression.loosen {level level' : Level} {w : List Token} {e : Expr}
    (h : Expression level' w e) (hrank : level.rank ≤ level'.rank) : Expression level w e := by
  obtain ⟨n, rfl⟩ := Level.exists_iterate_inner hrank
  clear hrank
  induction n with
  | zero => exact h
  | succ n ih =>
    rw [Function.iterate_succ_apply'] at h
    exact ih (.inner h)

theorem stops_cons {level : Level} {t : Token} {rest : List Token} (h : t.kind.joint = none) :
    Stops level (t :: rest) :=
  ⟨t, rest, rfl, by simp [h]⟩

/-- A minus sign begins no operand. -/
theorem Expression.begins {level : Level} {w : List Token} {e : Expr}
    (h : Expression level w e) :
    ∃ t v, w = t :: v ∧ t.kind.begins = true ∧
      (t.kind = .minus → level.rank ≤ Level.unary.rank) := by
  induction h with
  | number ht | string ht | boolean ht | null ht | ident ht =>
    exact ⟨_, _, rfl, by simp [ht, Token.Kind.begins]⟩
  | array hopening | group hopening => exact ⟨_, _, rfl, by simp [hopening, Token.Kind.begins]⟩
  | construct hword => exact ⟨_, _, rfl, by simp [hword, Token.Kind.begins]⟩
  | negate hminus => exact ⟨_, _, rfl, by simp [hminus, Token.Kind.begins]⟩
  | call _ _ _ ih | member _ _ _ ih =>
    obtain ⟨t, v, rfl, hbegins, hminus⟩ := ih
    exact ⟨t, _, rfl, hbegins, hminus⟩
  | method _ _ _ _ _ ih | index _ _ _ _ ih =>
    obtain ⟨t, v, rfl, hbegins, hminus⟩ := ih
    exact ⟨t, _, rfl, hbegins, fun ht => absurd (hminus ht) (by decide)⟩
  | binary _ _ _ _ ih =>
    obtain ⟨t, v, rfl, hbegins, hminus⟩ := ih
    exact ⟨t, _, rfl, hbegins, hminus⟩
  | assign _ _ _ _ ih =>
    obtain ⟨t, v, rfl, hbegins, -⟩ := ih
    exact ⟨t, _, rfl, hbegins, fun _ => by decide⟩
  | @inner level _ _ _ ih =>
    obtain ⟨t, v, rfl, hbegins, hminus⟩ := ih
    exact ⟨t, v, rfl, hbegins, fun ht => level.rank_le_inner.trans (hminus ht)⟩

end Grammar

namespace Parser

variable {α β : Type} {t : Token} {tokens rest : List Token}

/-! ## Taking tokens -/

theorem bind_of_ok {p : Parser α} {f : α → Parser β} {a : α} (h : p tokens = .ok (a, rest)) :
    (p >>= f) tokens = f a rest := by
  change (p tokens >>= fun r => f r.1 r.2) = _
  rw [h]
  rfl

theorem peek_bind {f : Token → Parser α} : (peek >>= f) (t :: rest) = f t (t :: rest) := rfl

theorem expect_bind {kind : Token.Kind} {complaint : Complaint} {f : Token → Parser α}
    (h : t.kind = kind) : (expect kind complaint >>= f) (t :: rest) = f t rest :=
  bind_of_ok (expect_ok.mpr ⟨rfl, h⟩)

theorem accept_bind_of_eq {kind : Token.Kind} {f : Bool → Parser α} (h : t.kind = kind) :
    (accept kind >>= f) (t :: rest) = f true rest :=
  bind_of_ok (accept_ok.mpr (.inl ⟨rfl, t, rfl, h⟩))

theorem accept_bind_of_ne {kind : Token.Kind} {f : Bool → Parser α} (h : t.kind ≠ kind) :
    (accept kind >>= f) (t :: rest) = f false (t :: rest) :=
  bind_of_ok (accept_ok.mpr (.inr ⟨rfl, rfl, t, rest, rfl, h⟩))

/-- The parser takes a word off the front wherever an expression can end. -/
def Takes (p : Parser Expr) (part : Reading Expr) : Prop :=
  ∀ rest, Stops .assignment rest → p (part.1 ++ rest) = .ok (part.2, rest)

/-! ## Lists of expressions -/

/-- A comma after an item asks for more. -/
theorem items_of_item {whole : Parser Expr} {w : List Token} {e : Expr}
    (he : Expression .assignment w e) (h : whole (w ++ rest) = .ok (e, rest))
    {closing : Token.Kind} (hclosing : closing.begins = false) (n : Nat) :
    items whole closing (n + 1) (w ++ rest) =
      (do if ← accept .comma then return e :: (← items whole closing n) else return [e] :
        Parser (List Expr)) rest := by
  obtain ⟨t, v, rfl, hbegins, -⟩ := he.begins
  have ht : t.kind ≠ closing := fun h => by simp [h, hclosing] at hbegins
  rw [items]
  simp only [List.cons_append, peek_bind, if_neg ht] at h ⊢
  rw [bind_of_ok h]

theorem items_complete {whole : Parser Expr} {closing : Token}
    (hclosing : closing.kind = .closeParen ∨ closing.kind = .closeBracket)
    {parts : List (Reading Expr)} {w : List Token} (hw : Listed parts w)
    (hparts : ∀ part ∈ parts, Expression .assignment part.1 part.2 ∧ Takes whole part) {n : Nat}
    (hn : w.length < n) :
    items whole closing.kind n (w ++ closing :: rest) =
      .ok (parts.map Prod.snd, closing :: rest) := by
  have hbegins : closing.kind.begins = false := by
    rcases hclosing with h | h <;> simp [h, Token.Kind.begins]
  induction hw generalizing n with
  | nil =>
    obtain ⟨n, rfl⟩ := Nat.exists_eq_succ_of_ne_zero (Nat.ne_zero_of_lt hn)
    simp only [items, List.nil_append, peek_bind, if_true, List.map_nil]
    rfl
  | @last w e =>
    obtain ⟨n, rfl⟩ := Nat.exists_eq_succ_of_ne_zero (Nat.ne_zero_of_lt hn)
    obtain ⟨he, htakes⟩ := hparts _ (List.mem_singleton_self _)
    have hstops : Stops .assignment (closing :: rest) :=
      stops_cons (by rcases hclosing with h | h <;> simp [h, Token.Kind.joint])
    have hcomma : closing.kind ≠ .comma := by rcases hclosing with h | h <;> simp [h]
    rw [items_of_item he (htakes _ hstops) hbegins, accept_bind_of_ne hcomma]
    rfl
  | @cons w e parts w' comma hcomma _ ih =>
    obtain ⟨n, rfl⟩ := Nat.exists_eq_succ_of_ne_zero (Nat.ne_zero_of_lt hn)
    obtain ⟨⟨he, htakes⟩, hparts⟩ := List.forall_mem_cons.mp hparts
    have hstops : Stops .assignment (comma :: (w' ++ closing :: rest)) :=
      stops_cons (by simp [hcomma, Token.Kind.joint])
    have hn : w'.length < n := by
      rw [List.length_append, List.length_cons] at hn
      omega
    rw [List.append_assoc, List.cons_append, items_of_item he (htakes _ hstops) hbegins,
      accept_bind_of_eq hcomma, if_pos rfl, bind_of_ok (ih hparts hn)]
    rfl

theorem arguments_complete {whole : Parser Expr} {closing : Token}
    (hclosing : closing.kind = .closeParen) {parts : List (Reading Expr)} {w : List Token}
    (hw : Listed parts w)
    (hparts : ∀ part ∈ parts, Expression .assignment part.1 part.2 ∧ Takes whole part) {n : Nat}
    (hn : w.length < n) :
    arguments whole n (w ++ closing :: rest) = .ok (parts.map Prod.snd, rest) := by
  have hitems : items whole .closeParen n (w ++ closing :: rest) = _ :=
    hclosing ▸ items_complete (.inl hclosing) hw hparts hn
  rw [arguments, bind_of_ok hitems, expect_bind hclosing]
  rfl

/-! ## Levels -/

/-- The parser of a level, with a count that is enough for words of `n` tokens. -/
def levelParser (n : Nat) : Level → Parser Expr
  | .assignment => assignment (expression n) n
  | .equality => equality (expression n) n
  | .comparison => joined orderOperators (joined termOperators
      (joined factorOperators (unary (expression n) n n) n) n) n
  | .additive => joined termOperators (joined factorOperators (unary (expression n) n n) n) n
  | .multiplicative => joined factorOperators (unary (expression n) n n) n
  | .unary => unary (expression n) n n
  | .operand | .callable => operand (expression n) n
  | .primary => primary (expression n) n

/-- After a word, a parser that starts with one part and goes on in a loop is in the loop with
the tree of the word, and has used up fewer rounds than the word has tokens. -/
def Resumes (start : Parser Expr) (loop : Nat → Expr → Parser Expr) (n : Nat) (w : List Token)
    (e : Expr) (rest : List Token) : Prop :=
  ∃ m, n < m + w.length ∧ start (w ++ rest) = loop m e rest

section

variable {start : Parser Expr} {loop : Nat → Expr → Parser Expr} {n : Nat} {w w' : List Token}
  {e e' : Expr}

theorem Resumes.first (h : start (w ++ rest) = .ok (e, rest)) (hw : w ≠ []) :
    Resumes (start >>= loop n) loop n w e rest :=
  ⟨n, Nat.lt_add_of_pos_right (List.length_pos_iff.mpr hw), bind_of_ok h⟩

theorem Resumes.round (h : Resumes start loop n w e (w' ++ rest)) (hw' : w' ≠ [])
    (hn : (w ++ w').length ≤ n)
    (hloop : ∀ m, w'.length ≤ m → loop (m + 1) e (w' ++ rest) = loop m e' rest) :
    Resumes start loop n (w ++ w') e' rest := by
  obtain ⟨m, hm, hread⟩ := h
  have hpos := List.length_pos_iff.mpr hw'
  rw [List.length_append] at hn
  obtain ⟨m, rfl⟩ : ∃ k, m = k + 1 := ⟨m - 1, by omega⟩
  refine ⟨m, ?_, ?_⟩
  · rw [List.length_append]
    omega
  · rw [List.append_assoc, hread, hloop m (by omega)]

theorem Resumes.done (h : Resumes start loop n w e rest) (hn : w.length ≤ n)
    (hloop : ∀ m, loop (m + 1) e rest = .ok (e, rest)) : start (w ++ rest) = .ok (e, rest) := by
  obtain ⟨m, hm, hread⟩ := h
  obtain ⟨m, rfl⟩ : ∃ k, m = k + 1 := ⟨m - 1, by omega⟩
  rw [hread, hloop]

end

/-- How far the parser of a level gets with a word in front of other tokens. A level that groups
to the left is in its loop then, and the others are done. -/
def Reads : Level → List Token → Expr → Prop
  | .assignment, w, e => ∀ n rest, w.length ≤ n → Stops .assignment rest →
      assignment (expression n) n (w ++ rest) = .ok (e, rest)
  | .unary, w, e => ∀ n m rest, w.length ≤ n → w.length ≤ m → Stops .unary rest →
      unary (expression n) n m (w ++ rest) = .ok (e, rest)
  | .operand, w, e => ∀ n rest, w.length ≤ n → Stops .callable rest →
      Resumes (operand (expression n) n) (suffixes (expression n)) n w e rest
  | .callable, w, e => ∀ n rest, w.length ≤ n →
      Resumes (operand (expression n) n) (suffixes (expression n)) n w e rest
  | .primary, w, e => ∀ n rest, w.length ≤ n →
      primary (expression n) n (w ++ rest) = .ok (e, rest)
  | level, w, e => ∀ n rest, w.length ≤ n → Stops level.inner rest →
      Resumes (levelParser n level)
        (chain (levelOperators level) (levelParser n level.inner)) n w e rest

theorem Reads.takes {w : List Token} {e : Expr} (h : Reads .assignment w e) {n : Nat}
    (hn : w.length < n) : Takes (expression n) (w, e) := by
  obtain ⟨n, rfl⟩ := Nat.exists_eq_succ_of_ne_zero (Nat.ne_zero_of_lt hn)
  exact fun rest hrest => h n rest (by omega) hrest

/-! ### Primary expressions -/

theorem reads_array {opening closing : Token} {parts : List (Reading Expr)} {w : List Token}
    (hopening : opening.kind = .openBracket) (hw : Listed parts w)
    (hparts : ∀ part ∈ parts, Expression .assignment part.1 part.2)
    (hreads : ∀ part ∈ parts, Reads .assignment part.1 part.2)
    (hclosing : closing.kind = .closeBracket) :
    Reads .primary (opening :: w ++ [closing]) (.array (parts.map Prod.snd) opening) := by
  intro n rest hn
  simp only [List.length_append, List.length_cons, List.length_nil] at hn
  have htakes : ∀ part ∈ parts,
      Expression .assignment part.1 part.2 ∧ Takes (expression n) part := by
    intro part hpart
    have := hw.length_le part hpart
    exact ⟨hparts part hpart, (hreads part hpart).takes (by omega)⟩
  have hitems : items (expression n) .closeBracket n (w ++ closing :: rest) = _ :=
    hclosing ▸ items_complete (.inr hclosing) hw htakes (by omega)
  simp only [primary, List.cons_append, List.append_assoc, List.nil_append, peek_bind, hopening,
    advance_bind, bind_of_ok hitems, expect_bind hclosing]
  rfl

theorem reads_group {opening closing : Token} {w : List Token} {e : Expr}
    (hopening : opening.kind = .openParen) (h : Reads .assignment w e)
    (hclosing : closing.kind = .closeParen) :
    Reads .primary (opening :: w ++ [closing]) e := by
  intro n rest hn
  simp only [List.length_append, List.length_cons, List.length_nil] at hn
  have he := h.takes (n := n) (by omega) (closing :: rest)
    (stops_cons (by simp [hclosing, Token.Kind.joint]))
  simp only [primary, List.cons_append, List.append_assoc, List.nil_append, peek_bind, hopening,
    advance_bind, bind_of_ok he, expect_bind hclosing]
  rfl

theorem arguments_read {parts : List (Reading Expr)} {w : List Token} (hw : Arguments parts w)
    (hparts : ∀ part ∈ parts, Expression .assignment part.1 part.2)
    (hreads : ∀ part ∈ parts, Reads .assignment part.1 part.2) {n m : Nat} (hn : w.length ≤ n)
    (hm : w.length ≤ m) (rest : List Token) :
    ∃ opening v, opening.kind = .openParen ∧ w ++ rest = opening :: v ∧
      arguments (expression n) m v = .ok (parts.map Prod.snd, rest) := by
  cases hw with
  | @intro w opening closing hopening hw hclosing =>
    simp only [List.length_append, List.length_cons, List.length_nil] at hn hm
    refine ⟨opening, w ++ closing :: rest, hopening, by simp, ?_⟩
    refine arguments_complete hclosing hw (fun part hpart => ⟨hparts part hpart, ?_⟩) (by omega)
    have := hw.length_le part hpart
    exact (hreads part hpart).takes (by omega)

theorem reads_construct {word name : Token} {parts : List (Reading Expr)} {w : List Token}
    (hword : word.kind = .newWord) (hname : name.kind = .identifier) (hw : Arguments parts w)
    (hparts : ∀ part ∈ parts, Expression .assignment part.1 part.2)
    (hreads : ∀ part ∈ parts, Reads .assignment part.1 part.2) :
    Reads .primary (word :: name :: w) (.construct name.value (parts.map Prod.snd) word) := by
  intro n rest hn
  simp only [List.length_cons] at hn
  obtain ⟨opening, v, hopening, hv, hargs⟩ :=
    arguments_read hw hparts hreads (n := n) (m := n) (by omega) (by omega) rest
  simp only [primary, List.cons_append, peek_bind, hword, advance_bind, expect_bind hname, hv,
    expect_bind hopening, bind_of_ok hargs]
  rfl

/-! ### Operands -/

theorem suffixes_of_stops {whole : Parser Expr} {n : Nat} {e : Expr} (h : Stops .operand rest) :
    suffixes whole (n + 1) e rest = .ok (e, rest) := by
  obtain ⟨t, rest, rfl, ht⟩ := h
  simp only [suffixes, peek_bind]
  cases hkind : t.kind <;> simp [hkind, Token.Kind.joint, Level.rank] at ht ⊢ <;> rfl

theorem reads_call {callee : Expr} {w w' : List Token} {parts : List (Reading Expr)}
    (hcallee : Reads .callable w callee) (hw' : Arguments parts w')
    (hparts : ∀ part ∈ parts, Expression .assignment part.1 part.2)
    (hreads : ∀ part ∈ parts, Reads .assignment part.1 part.2) :
    Reads .callable (w ++ w') (.call callee (parts.map Prod.snd) callee.token) := by
  intro n rest hn
  have hlength := List.length_append ▸ hn
  refine (hcallee n (w' ++ rest) (by omega)).round hw'.ne_nil hn fun m hm => ?_
  obtain ⟨opening, v, hopening, hv, hargs⟩ :=
    arguments_read hw' hparts hreads (n := n) (by omega) hm rest
  rw [hv]
  simp only [suffixes, peek_bind, hopening, advance_bind, bind_of_ok hargs]

theorem reads_method {object : Expr} {w w' : List Token} {dot name : Token}
    {parts : List (Reading Expr)} (hobject : Reads .operand w object) (hdot : dot.kind = .dot)
    (hname : name.kind = .identifier) (hw' : Arguments parts w')
    (hparts : ∀ part ∈ parts, Expression .assignment part.1 part.2)
    (hreads : ∀ part ∈ parts, Reads .assignment part.1 part.2) :
    Reads .callable (w ++ dot :: name :: w')
      (.method object name.value (parts.map Prod.snd) name) := by
  intro n rest hn
  have hlength := List.length_append ▸ hn
  have hstops : Stops .callable (dot :: name :: w' ++ rest) :=
    ⟨dot, _, rfl, by simp [hdot, Token.Kind.joint, Level.rank]⟩
  refine (hobject n _ (by omega) hstops).round (by simp) hn fun m hm => ?_
  simp only [List.length_cons] at hm hlength
  obtain ⟨opening, v, hopening, hv, hargs⟩ :=
    arguments_read hw' hparts hreads (n := n) (m := m) (by omega) (by omega) rest
  simp only [List.cons_append, suffixes, peek_bind, hdot, advance_bind, expect_bind hname, hv,
    accept_bind_of_eq hopening, if_true, bind_of_ok hargs]

theorem reads_index {object position : Expr} {w w' : List Token} {opening closing : Token}
    (hobject : Reads .operand w object) (hopening : opening.kind = .openBracket)
    (hposition : Reads .assignment w' position) (hclosing : closing.kind = .closeBracket) :
    Reads .callable (w ++ opening :: w' ++ [closing]) (.index object position opening) := by
  intro n rest hn
  rw [List.append_assoc] at hn ⊢
  have hlength := List.length_append ▸ hn
  have hstops : Stops .callable (opening :: w' ++ [closing] ++ rest) :=
    ⟨opening, _, rfl, by simp [hopening, Token.Kind.joint, Level.rank]⟩
  refine (hobject n _ (by omega) hstops).round (by simp) hn fun m hm => ?_
  simp only [List.length_append, List.length_cons] at hm hlength
  have hread := hposition.takes (n := n) (by omega) (closing :: rest)
    (stops_cons (by simp [hclosing, Token.Kind.joint]))
  simp only [List.cons_append, List.append_assoc, List.nil_append, suffixes, peek_bind, hopening,
    advance_bind, bind_of_ok hread, expect_bind hclosing]

theorem reads_member {object : Expr} {w : List Token} {dot name : Token}
    (hobject : Reads .operand w object) (hdot : dot.kind = .dot)
    (hname : name.kind = .identifier) :
    Reads .operand (w ++ [dot, name]) (.member object name.value name) := by
  intro n rest hn hrest
  have hlength := List.length_append ▸ hn
  have hstops : Stops .callable ([dot, name] ++ rest) :=
    ⟨dot, _, rfl, by simp [hdot, Token.Kind.joint, Level.rank]⟩
  refine (hobject n _ (by omega) hstops).round (by simp) hn fun m _ => ?_
  obtain ⟨t, rest, rfl, ht⟩ := hrest
  have hopen : t.kind ≠ .openParen := fun h => by simp [h, Token.Kind.joint] at ht
  simp only [List.cons_append, List.nil_append, suffixes, peek_bind, hdot, advance_bind,
    expect_bind hname, accept_bind_of_ne hopen, Bool.false_eq_true, if_false]

/-! ### Operators -/

theorem chain_of_stops {level : Level} {part : Parser Expr} {n : Nat} {e : Expr}
    (h : Stops level rest) :
    chain (levelOperators level) part (n + 1) e rest = .ok (e, rest) := by
  obtain ⟨t, rest, rfl, ht⟩ := h
  have hnone : levelOperators level t.kind = none := by
    rw [Option.eq_none_iff_forall_ne_some]
    intro op hop
    obtain ⟨hkind, rfl⟩ := levelOperators_eq_some.mp hop
    exact absurd (ht op.level (by rw [← hkind, BinaryOp.joint_kind, Option.mem_some])) (lt_irrefl _)
  simp only [chain, peek_bind, hnone]
  rfl

/-- Before tokens that do not carry on the expression, the loop of a level ends. -/
theorem Reads.done {level : Level} {w : List Token} {e : Expr} (h : Reads level w e)
    (hlevel : level.rank ≤ Level.unary.rank) {n : Nat} (hn : w.length ≤ n)
    (hrest : Stops level rest) : levelParser n level (w ++ rest) = .ok (e, rest) := by
  cases level with
  | assignment => exact h n rest hn hrest
  | equality | comparison | additive | multiplicative =>
    exact (h n rest hn hrest.inner).done hn fun _ => chain_of_stops hrest
  | unary => exact h n n rest hn hn hrest
  | operand | callable | primary => exact absurd hlevel (by decide)

theorem reads_level (op : BinaryOp) {w : List Token} {e : Expr} :
    Reads op.level w e ↔ ∀ n rest, w.length ≤ n → Stops op.level.inner rest →
      Resumes (levelParser n op.level)
        (chain (levelOperators op.level) (levelParser n op.level.inner)) n w e rest := by
  cases op <;> rfl

theorem reads_binary {op : BinaryOp} {left right : Expr} {w w' : List Token}
    (hleft : Reads op.level w left) (ht : t.kind = op.kind)
    (hright : Reads op.level.inner w' right) :
    Reads op.level (w ++ t :: w') (.binary op left right t) := by
  rw [reads_level] at hleft ⊢
  intro n rest hn hrest
  have hlength := List.length_append ▸ hn
  have hstops : Stops op.level.inner (t :: w' ++ rest) :=
    ⟨t, _, rfl, by simp [ht, BinaryOp.joint_kind, BinaryOp.rank_lt_inner]⟩
  refine (hleft n _ (by omega) hstops).round (by simp) hn fun m _ => ?_
  have hop : levelOperators op.level t.kind = some op := levelOperators_eq_some.mpr ⟨ht.symm, rfl⟩
  simp only [List.length_cons] at hlength
  have hread := hright.done op.rank_inner_le (n := n) (by omega) hrest
  simp only [List.cons_append, chain, peek_bind, hop, advance_bind, bind_of_ok hread]

theorem reads_negate {minus : Token} {w : List Token} {e : Expr} (hminus : minus.kind = .minus)
    (h : Reads .unary w e) : Reads .unary (minus :: w) (.negate e minus) := by
  intro n m rest hn hm hrest
  rw [List.length_cons] at hn hm
  obtain ⟨m, rfl⟩ : ∃ k, m = k + 1 := ⟨m - 1, by omega⟩
  have hread := h n m rest (by omega) (by omega) hrest
  simp only [List.cons_append, unary, peek_bind, hminus, if_true, advance_bind, bind_of_ok hread]
  rfl

theorem reads_assign {target value : Expr} {w w' : List Token} (htarget : Reads .equality w target)
    (hleft : target.isTarget = true) (ht : t.kind = .assign) (hvalue : Reads .assignment w' value) :
    Reads .assignment (w ++ t :: w') (.assign target value t) := by
  intro n rest hn hrest
  simp only [List.length_append, List.length_cons] at hn
  have hstops : Stops .equality (t :: w' ++ rest) :=
    ⟨t, _, rfl, by simp [ht, Token.Kind.joint, Level.rank]⟩
  have hread : equality (expression n) n (w ++ (t :: w' ++ rest)) = _ :=
    htarget.done (by decide) (by omega) hstops
  have hread' := hvalue.takes (n := n) (by omega) rest hrest
  rw [List.append_assoc, assignment, bind_of_ok hread]
  simp only [List.cons_append, peek_bind, ht, hleft, if_true, advance_bind, bind_of_ok hread']
  rfl

/-! ### All levels -/

theorem Reads.inner {level : Level} {w : List Token} {e : Expr} (he : Expression level.inner w e)
    (h : Reads level.inner w e) : Reads level w e := by
  cases level with
  | assignment =>
    intro n rest hn hrest
    have hread : equality (expression n) n (w ++ rest) = _ := h.done (by decide) hn hrest.inner
    obtain ⟨t, rest, rfl, ht⟩ := hrest
    have hassign : t.kind ≠ .assign := fun h => by simp [h, Token.Kind.joint] at ht
    rw [assignment, bind_of_ok hread, peek_bind, if_neg hassign]
    rfl
  | equality | comparison | additive | multiplicative =>
    intro n rest hn hrest
    exact Resumes.first (h.done (by decide) hn hrest) he.ne_nil
  | unary =>
    intro n m rest hn hm hrest
    obtain ⟨t, v, rfl, -, hminus⟩ := he.begins
    obtain ⟨m, rfl⟩ : ∃ k, m = k + 1 := ⟨m - 1, by simp at hm; omega⟩
    have ht : t.kind ≠ .minus := fun h => absurd (hminus h) (by decide)
    have hread := (h n rest hn hrest.inner.inner).done hn fun _ => suffixes_of_stops hrest.inner
    rw [List.cons_append] at hread ⊢
    rw [unary, peek_bind, if_neg ht, hread]
  | operand => exact fun n rest hn _ => h n rest hn
  | callable => exact fun n rest hn => Resumes.first (h n rest hn) he.ne_nil
  | primary => exact h

theorem reads_of_expression {level : Level} {w : List Token} {e : Expr}
    (h : Expression level w e) : Reads level w e := by
  induction h with
  | number ht | string ht | boolean ht | null ht | ident ht =>
    intro n rest _
    simp only [List.cons_append, primary, peek_bind, ht, advance_bind]
    rfl
  | array hopening hparts hw hclosing ih => exact reads_array hopening hw hparts ih hclosing
  | group hopening _ hclosing ih => exact reads_group hopening ih hclosing
  | construct hword hname hparts hw ih => exact reads_construct hword hname hw hparts ih
  | call _ hparts hw' ih ihparts => exact reads_call ih hw' hparts ihparts
  | method _ hdot hname hparts hw' ih ihparts =>
    exact reads_method ih hdot hname hw' hparts ihparts
  | index _ hopening _ hclosing ih ihposition => exact reads_index ih hopening ihposition hclosing
  | member _ hdot hname ih => exact reads_member ih hdot hname
  | negate hminus _ ih => exact reads_negate hminus ih
  | binary hlevel _ ht _ ih ih' =>
    subst hlevel
    exact reads_binary ih ht ih'
  | assign _ htarget ht _ ih ih' => exact reads_assign ih htarget ht ih'
  | inner he ih => exact ih.inner he

/-- With a count above its length, the parser reads every expression of the grammar that stands
before a token which does not carry it on. -/
theorem expression_complete {w : List Token} {e : Expr} (h : Expression .assignment w e) {n : Nat}
    (hn : w.length < n) (hrest : Stops .assignment rest) :
    expression n (w ++ rest) = .ok (e, rest) :=
  (reads_of_expression h).takes hn rest hrest

/-! ## A program of one expression -/

theorem statementWith_of_begins {expr : Parser Expr} {stmt : Parser Stmt} {n : Nat}
    (h : t.kind.begins = true) :
    statementWith expr stmt n (t :: rest) = expressionStatement expr t (t :: rest) := by
  rw [statementWith, peek_bind]
  cases hkind : t.kind <;> simp [hkind, Token.Kind.begins] at h ⊢

theorem statement_of_expression {v : List Token} {e : Expr} {n : Nat} {last : Token}
    (h : Expression .assignment (t :: v) e) (hn : (t :: v).length < n)
    (hlast : last.kind = .endOfInput) :
    statement n (t :: v ++ [last]) = .ok (.expr e t, [last]) := by
  obtain ⟨n, rfl⟩ := Nat.exists_eq_succ_of_ne_zero (Nat.ne_zero_of_lt hn)
  obtain ⟨_, _, hcons, hbegins, -⟩ := h.begins
  obtain ⟨rfl, rfl⟩ := List.cons.inj hcons
  have hstops : Stops .assignment [last] := stops_cons (by simp [hlast, Token.Kind.joint])
  have hread := expression_complete h hn hstops
  rw [statement, List.cons_append, statementWith_of_begins hbegins, expressionStatement,
    ← List.cons_append, bind_of_ok hread, accept_bind_of_ne (by simp [hlast])]
  rfl

theorem skipSemicolons_bind {f : Unit → Parser α} (h : t.kind ≠ .semicolon) :
    (skipSemicolons >>= f) (t :: rest) = f () (t :: rest) := by
  refine bind_of_ok ?_
  rw [skipSemicolons, List.dropWhile_cons_of_neg (by simpa using h)]

theorem program_of_end {stmt : Parser Stmt} {n : Nat} (h : t.kind = .endOfInput) :
    program stmt (n + 1) (t :: rest) = .ok ([], t :: rest) := by
  rw [program, skipSemicolons_bind (by simp [h]), peek_bind, if_pos h]
  rfl

theorem program_of_statement {stmt : Parser Stmt} {n : Nat} {s : Stmt} {body : List Stmt}
    {mid left : List Token} (hbegins : t.kind.begins = true)
    (h : stmt (t :: rest) = .ok (s, mid)) (hbody : program stmt n mid = .ok (body, left)) :
    program stmt (n + 1) (t :: rest) = .ok (s :: body, left) := by
  have hkind : t.kind ≠ .semicolon ∧ t.kind ≠ .endOfInput := by
    constructor <;> intro h <;> simp [h, Token.Kind.begins] at hbegins
  rw [program, skipSemicolons_bind hkind.1, peek_bind, if_neg hkind.2, bind_of_ok h,
    bind_of_ok hbody]
  rfl

end Parser

/-- The word of an expression is a program of one statement. -/
theorem Program.parse_expression {t last : Token} {v : List Token} {e : Expr}
    (h : Expression .assignment (t :: v) e) (hlast : last.kind = .endOfInput) :
    Program.parse (t :: v ++ [last]) = .ok ⟨t, [.expr e t]⟩ := by
  obtain ⟨_, _, hcons, hbegins, -⟩ := h.begins
  obtain ⟨rfl, rfl⟩ := List.cons.inj hcons
  have hcontinued : Program.continued (t :: v ++ [last]) = t :: v ++ [last] :=
    Program.continued_of_ended List.getLast?_concat hlast
  have hstatement := Parser.statement_of_expression h (n := (t :: v ++ [last]).length + 1)
    (by simp) hlast
  have hprogram : Parser.program (Parser.statement ((t :: v ++ [last]).length + 1))
      ((t :: v ++ [last]).length + 1) (t :: v ++ [last]) = .ok ([.expr e t], [last]) :=
    Parser.program_of_statement hbegins hstatement (Parser.program_of_end hlast)
  simp only [Program.parse, hcontinued, hprogram]
  rfl

end Script
