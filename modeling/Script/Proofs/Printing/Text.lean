import Script.Syntax.Render
import Script.Proofs.Grammar.Occurrence
import Script.Proofs.Spelling

/-!
# The text of an expression

The text of an expression reads as the tokens it is made of. What a token is can depend on what
stands behind it: a name goes on through letters and digits, a number through a point that a digit
follows. So the text of a part is legible before every text that ends a name and a number, and each
way of printing a part between others has to show that such a text follows.
-/

namespace Script

open Grammar Lexeme

/-! ## The word of an expression -/

/-- A token of a kind that has one spelling, without a place. -/
def Token.mark (kind : Token.Kind) : Token :=
  ⟨kind, (fixedSpelling? kind).getD [], {}⟩

mutual

/-- The tokens that the text of an expression shows, without their places. -/
def Expr.word : Expr → List Token
  | .hole => []
  | .number _ t | .string _ t | .boolean _ t | .null t | .ident _ t => [t.unplaced]
  | .negate operand t => .mark .openParen :: t.unplaced :: operand.word ++ [.mark .closeParen]
  | .binary _ left right t | .assign left right t =>
    .mark .openParen :: left.word ++ t.unplaced :: right.word ++ [.mark .closeParen]
  | .call callee args _ =>
    callee.word ++ .mark .openParen :: List.intercalate [.mark .comma] (Expr.words args)
      ++ [.mark .closeParen]
  | .method object _ args t =>
    object.word ++ .mark .dot :: t.unplaced :: .mark .openParen
      :: List.intercalate [.mark .comma] (Expr.words args) ++ [.mark .closeParen]
  | .member object _ t => object.word ++ [.mark .dot, t.unplaced]
  | .index object position t =>
    object.word ++ t.unplaced :: position.word ++ [.mark .closeBracket]
  | .array items t =>
    t.unplaced :: List.intercalate [.mark .comma] (Expr.words items) ++ [.mark .closeBracket]
  | .construct className args t =>
    t.unplaced :: ⟨.identifier, className, {}⟩ :: .mark .openParen
      :: List.intercalate [.mark .comma] (Expr.words args) ++ [.mark .closeParen]

def Expr.words : List Expr → List (List Token)
  | [] => []
  | e :: rest => e.word :: Expr.words rest

end

/-- The text of such an expression can be read again: a string stands between quotes as it is, and
a call of a member would be read as a call of a method. -/
def Expr.Printable : Expr → Prop
  | .string value _ =>
    ∀ b ∈ value, b ≠ Byte.doubleQuote ∧ b ≠ Byte.backslash ∧ b ≠ Byte.newline
  | .call (.member ..) _ _ => False
  | _ => True

/-! ## The text reads as the word -/

namespace Lexeme

theorem calm_nil : Calm [] :=
  ⟨by simp, rfl⟩

/-- A text that begins with a delimiter ends what stands before it. -/
theorem calm_append {text : Text}
    (h : text.head?.any (fun b => !Byte.isNamePart b && b != Byte.dot) = true) (rest : Text) :
    Calm (text ++ rest) := by
  cases text with
  | nil => cases h
  | cons b text =>
    simp only [List.head?_cons, Option.any_some, Bool.and_eq_true, Bool.not_eq_true', bne_iff_ne]
      at h
    refine ⟨by simpa using h.1, ?_⟩
    rw [List.cons_append]
    unfold fractionPart
    split
    next heq => exact absurd (List.cons.inj heq).1 h.2
    next => rfl

theorem calm_dot {b : UInt8} (hb : Byte.isDigit b = false) (rest : Text) :
    Calm (Byte.dot :: b :: rest) := by
  refine ⟨by simp; decide, ?_⟩
  rw [fractionPart_dot, List.takeWhile_cons_of_neg (by simp [hb])]
  rfl

end Lexeme

namespace Token

/-- The kinds of words and numbers. -/
def Kind.isWord : Kind → Bool
  | .number | .identifier | .boolean | .null | .newWord => true
  | _ => false

theorem punctuation_isWord (b : UInt8) : ∀ kind ∈ punctuation? b, kind.isWord = false :=
  Byte.forall_of_fin (p := fun b => ∀ kind ∈ punctuation? b, kind.isWord = false)
    (by decide +kernel) b

theorem pairOperator_isWord (b : UInt8) : ∀ kind ∈ pairOperator? b, kind.isWord = false :=
  Byte.forall_of_fin (p := fun b => ∀ kind ∈ pairOperator? b, kind.isWord = false)
    (by decide +kernel) b

theorem spells_word {kind : Kind} {value rest : Text} (h : Spelling kind value)
    (hkind : kind.isWord = true) (hrest : Calm rest) : Spells value [⟨kind, value, {}⟩] rest := by
  cases h with
  | pair hb => exact absurd hkind (by simp [pairOperator_isWord _ _ hb])
  | punctuation hb => exact absurd hkind (by simp [punctuation_isWord _ _ hb])
  | string => cases hkind
  | numeral h => exact spells_numeral h hrest
  | name hb htext => exact spells_name hb htext hrest

/-- The kinds of single bytes that are tokens by themselves, whatever follows them. -/
def Kind.standsAlone : Kind → Bool
  | .openParen | .closeParen | .openBracket | .closeBracket | .comma | .dot | .minus => true
  | _ => false

theorem spells_mark (kind : Kind) (h : kind.standsAlone = true) (rest : Text) :
    Spells (mark kind).value [mark kind] rest := by
  obtain ⟨b, hvalue, hb, hslash, hpair⟩ : ∃ b, (mark kind).value = [b] ∧
      punctuation? b = some kind ∧ b ≠ Byte.slash ∧ pairOperator? b = none := by
    cases kind <;> cases h <;> exact ⟨_, rfl, by decide, by decide, rfl⟩
  have hmark : mark kind = ⟨kind, [b], {}⟩ := by rw [← hvalue]; rfl
  rw [hmark]
  exact spells_punctuation hb hslash hpair rest

theorem spells_separator (rest : Text) : Spells ", " [mark .comma] rest :=
  (spells_mark .comma rfl (" " ++ rest)).append (spells_space rest)

theorem spells_negation (rest : Text) : Spells "(-" [mark .openParen, mark .minus] rest :=
  (spells_mark .openParen rfl ("-" ++ rest)).append (spells_mark .minus rfl rest)

/-- An operator stands between spaces. -/
theorem spells_operator (op : BinaryOp) (rest : Text) :
    Spells (" " ++ (Text.ofString op.symbol ++ " ")) [mark op.kind] rest := by
  have hsymbol : Spells (Text.ofString op.symbol) [mark op.kind] (" " ++ rest) := by
    cases op with
    | add | subtract | multiply | divide | less | greater =>
      exact spells_token (next_punctuation (by decide) (fun _ => rfl) (.inr rfl))
    | equal | notEqual | lessEqual | greaterEqual => exact spells_token (next_pair rfl _)
  exact (spells_space _).append (hsymbol.append (spells_space rest))

theorem spells_assign (rest : Text) : Spells " = " [mark .assign] rest := by
  have hsign : Spells "=" [mark .assign] (" " ++ rest) :=
    spells_token (next_punctuation (by decide) (fun _ => rfl) (.inr rfl))
  exact (spells_space _).append (hsign.append (spells_space rest))

theorem fixedSpelling_kind (op : BinaryOp) : fixedSpelling? op.kind = some op.symbol := by
  cases op <;> rfl

theorem unplaced_eq_mark {t : Token} {kind : Kind} {text : Text} (hkind : t.kind = kind)
    (hspelling : Spelling t.kind t.value) (hfixed : fixedSpelling? kind = some text) :
    t.unplaced = mark kind := by
  subst hkind
  rw [mark, hfixed, Option.getD_some, unplaced, hspelling.fixed hfixed]

end Token

namespace Expr

-- The equations are made here, once for all the lemmas below.
attribute [local simp] text texts word words

/-- Before anything that ends it, the text of the expression reads as its word. -/
def Legible (e : Expr) : Prop :=
  ∀ rest, Calm rest → Token.Spells e.text e.word rest

theorem legible_word {e : Expr} {t : Token} (htext : e.text = t.value)
    (hword : e.word = [t.unplaced]) (ht : t.kind.isWord = true)
    (hspelling : Spelling t.kind t.value) : e.Legible := by
  intro rest hrest
  rw [htext, hword]
  exact Token.spells_word hspelling ht hrest

theorem spells_items {es : List Expr} (h : ∀ e ∈ es, e.Legible) {rest : Text}
    (hrest : Calm rest) :
    Token.Spells (Text.join ", " (texts es)) (List.intercalate [.mark .comma] (words es)) rest := by
  induction es with
  | nil => exact Token.spells_nil rest
  | cons e es ih =>
    obtain ⟨he, hes⟩ := List.forall_mem_cons.mp h
    cases es with
    | nil => simpa [Text.join] using he rest hrest
    | cons e' es =>
      have hcalm : Calm (", " ++ (Text.join ", " (texts (e' :: es)) ++ rest)) :=
        calm_append (by decide) _
      have hall := ((he _ hcalm).append (Token.spells_separator _)).append (ih hes)
      simpa only [Text.join, texts, words, List.intercalate_cons_cons] using hall

theorem spells_arguments {es : List Expr} (h : ∀ e ∈ es, e.Legible) (rest : Text) :
    Token.Spells ("(" ++ Text.join ", " (texts es) ++ ")")
      (.mark .openParen :: List.intercalate [.mark .comma] (words es) ++ [.mark .closeParen])
      rest := by
  have hcalm : Calm (")" ++ rest) := calm_append (by decide) rest
  have hitems := spells_items h hcalm
  exact ((Token.spells_mark .openParen rfl _).append hitems).append
    (Token.spells_mark .closeParen rfl rest)

theorem Legible.negate {e : Expr} {t : Token} (h : e.Legible) (ht : t.unplaced = .mark .minus) :
    (Expr.negate e t).Legible := by
  intro rest _
  rw [word, ht]
  exact ((Token.spells_negation _).append (h _ (calm_append (by decide) _))).append
    (Token.spells_mark .closeParen rfl rest)

/-- Two expressions in parentheses with a sign between them. -/
theorem Legible.between {left right : Expr} (hleft : left.Legible) (hright : right.Legible)
    {sign : Text} {w : List Token} (hcalm : ∀ rest, Calm (sign ++ rest))
    (hsign : ∀ rest, Token.Spells sign w rest) (rest : Text) :
    Token.Spells ("(" ++ left.text ++ sign ++ right.text ++ ")")
      (.mark .openParen :: left.word ++ w ++ right.word ++ [.mark .closeParen]) rest :=
  ((((Token.spells_mark .openParen rfl _).append (hleft _ (hcalm _))).append (hsign _)).append
    (hright _ (calm_append (by decide) _))).append (Token.spells_mark .closeParen rfl rest)

theorem Legible.binary {op : BinaryOp} {left right : Expr} {t : Token} (hleft : left.Legible)
    (hright : right.Legible) (ht : t.unplaced = .mark op.kind) :
    (Expr.binary op left right t).Legible := by
  intro rest _
  have h := hleft.between hright (calm_append (by rfl)) (Token.spells_operator op) rest
  simpa only [text, word, ht, List.append_assoc, List.singleton_append] using h

theorem Legible.assign {target value : Expr} {t : Token} (htarget : target.Legible)
    (hvalue : value.Legible) (ht : t.unplaced = .mark .assign) :
    (Expr.assign target value t).Legible := by
  intro rest _
  have h := htarget.between hvalue (calm_append (by rfl)) Token.spells_assign rest
  simpa only [text, word, ht, List.append_assoc, List.singleton_append] using h

theorem Legible.call {callee : Expr} {args : List Expr} {t : Token} (hcallee : callee.Legible)
    (hargs : ∀ e ∈ args, e.Legible) : (Expr.call callee args t).Legible := by
  intro rest _
  have h := (hcallee _ (calm_append (by rfl) _)).append (spells_arguments hargs rest)
  simpa only [text, word, List.append_assoc] using h

/-- The point before a name does not make a fraction of a number in front of it. -/
theorem Legible.member {object : Expr} {t : Token} (hobject : object.Legible)
    (ht : t.kind = .identifier) (hspelling : Spelling t.kind t.value) :
    (Expr.member object t.value t).Legible := by
  intro rest hrest
  have hname : Token.Spells t.value [t.unplaced] rest :=
    Token.spells_word hspelling (by rw [ht]; rfl) hrest
  obtain ⟨b, name, hvalue, hb, -, -⟩ := Spelling.identifier (ht ▸ hspelling)
  have hcalm : Calm ("." ++ (t.value ++ rest)) := by
    rw [hvalue]
    exact calm_dot (word_of_startsName hb).2 (name ++ rest)
  have h := ((hobject _ hcalm).append (Token.spells_mark .dot rfl _)).append hname
  simpa only [text, word, List.append_assoc, List.singleton_append] using h

theorem Legible.method {object : Expr} {args : List Expr} {t : Token} (hobject : object.Legible)
    (ht : t.kind = .identifier) (hspelling : Spelling t.kind t.value)
    (hargs : ∀ e ∈ args, e.Legible) : (Expr.method object t.value args t).Legible := by
  intro rest _
  have h := (hobject.member ht hspelling _ (calm_append (by rfl) _)).append
    (spells_arguments hargs rest)
  simpa only [text, word, List.append_assoc, List.cons_append, List.nil_append] using h

theorem Legible.index {object position : Expr} {t : Token} (hobject : object.Legible)
    (hposition : position.Legible) (ht : t.unplaced = .mark .openBracket) :
    (Expr.index object position t).Legible := by
  intro rest _
  have hopen (rest : Text) : Token.Spells "[" [.mark .openBracket] rest :=
    Token.spells_mark .openBracket rfl rest
  have hclose : Token.Spells "]" [.mark .closeBracket] rest :=
    Token.spells_mark .closeBracket rfl rest
  have h := (((hobject _ (calm_append (by decide) _)).append (hopen _)).append
    (hposition _ (calm_append (by decide) _))).append hclose
  simpa only [text, word, ht, List.append_assoc, List.cons_append, List.nil_append] using h

theorem legible_array {items : List Expr} {t : Token} (hitems : ∀ e ∈ items, e.Legible)
    (ht : t.unplaced = .mark .openBracket) : (Expr.array items t).Legible := by
  intro rest _
  have hcalm : Calm ("]" ++ rest) := calm_append (by decide) rest
  have h := ((Token.spells_mark .openBracket rfl _).append (spells_items hitems hcalm)).append
    (Token.spells_mark .closeBracket rfl rest)
  rw [word, ht]
  exact h

theorem legible_construct {className : Text} {args : List Expr} {t : Token}
    (hname : Spelling .identifier className) (hargs : ∀ e ∈ args, e.Legible)
    (ht : t.unplaced = .mark .newWord) : (Expr.construct className args t).Legible := by
  intro rest _
  have hword : Spelling .newWord "new" :=
    .of_next (show next 110 "ew" = .ok (.token .newWord "new" 3) from rfl)
  have hnew (rest : Text) : Token.Spells "new " [.mark .newWord] rest :=
    (Token.spells_word hword rfl (calm_append (by decide) _)).append (Token.spells_space rest)
  have h := ((hnew _).append (Token.spells_word hname rfl (calm_append (by rfl) _))).append
    (spells_arguments hargs rest)
  simpa only [text, word, ht, List.append_assoc, List.cons_append, List.nil_append] using h

end Expr

/-- The parts of a list, if each of them is legible by itself. -/
theorem Expr.legible_parts {parts : List (Reading Expr)} {w : List Token}
    (hparts : ∀ part ∈ parts, (∀ t ∈ part.1, Spelling t.kind t.value) →
      (∀ p ∈ part.2.parts, p.Printable) → part.2.Legible)
    (hsubset : ∀ part ∈ parts, part.1 ⊆ w) (hw : ∀ t ∈ w, Spelling t.kind t.value)
    (hprintable : ∀ p ∈ Expr.partsAll (parts.map Prod.snd), p.Printable) :
    ∀ e ∈ parts.map Prod.snd, e.Legible := by
  rw [Expr.forall_partsAll, List.forall_mem_map] at hprintable
  rw [List.forall_mem_map]
  intro part hpart
  exact hparts part hpart (fun t ht => hw t (hsubset part hpart ht)) (hprintable part hpart)

/-- An expression of the grammar whose tokens are spelled as they are read is legible. -/
theorem Grammar.Expression.legible {level : Level} {w : List Token} {e : Expr}
    (h : Expression level w e) (hw : ∀ t ∈ w, Spelling t.kind t.value)
    (hprintable : ∀ p ∈ e.parts, p.Printable) : e.Legible := by
  induction h with
  | @number t ht =>
    have hspelling := hw t List.mem_cons_self
    have hne := (Spelling.number (ht ▸ hspelling)).ne_nil
    refine Expr.legible_word ?_ rfl (ht ▸ rfl) hspelling
    rw [Expr.text, if_neg (by simpa using hne)]
  | @string t ht =>
    intro rest _
    have hvalue := hprintable _ List.mem_cons_self
    have htoken : t.unplaced = ⟨.string, t.value, {}⟩ := by rw [Token.unplaced, ht]
    rw [Expr.word, htoken]
    exact Token.spells_string hvalue rest
  | @boolean t ht =>
    have hspelling := hw t List.mem_cons_self
    refine Expr.legible_word ?_ rfl (ht ▸ rfl) hspelling
    rcases Spelling.boolean (ht ▸ hspelling) with h | h <;> rw [h] <;> rfl
  | @null t ht =>
    have hspelling := hw t List.mem_cons_self
    exact Expr.legible_word (hspelling.fixed (ht ▸ rfl)).symm rfl (ht ▸ rfl) hspelling
  | @ident t ht => exact Expr.legible_word rfl rfl (ht ▸ rfl) (hw t List.mem_cons_self)
  | inner _ ih => exact ih hw hprintable
  | group _ _ _ ih => exact ih (fun t ht => hw t (by simp [ht])) hprintable
  | negate hminus _ ih =>
    obtain ⟨hspelling, hw⟩ := List.forall_mem_cons.mp hw
    exact (ih hw (List.forall_mem_cons.mp hprintable).2).negate
      (Token.unplaced_eq_mark hminus hspelling rfl)
  | @binary _ op _ _ _ _ _ _ _ ht _ ih ih' =>
    simp only [List.forall_mem_append, List.forall_mem_cons] at hw
    simp only [Expr.parts, List.forall_mem_append, List.forall_mem_cons] at hprintable
    obtain ⟨hw, hspelling, hw'⟩ := hw
    exact (ih hw hprintable.2.1).binary (ih' hw' hprintable.2.2)
      (Token.unplaced_eq_mark ht hspelling (Token.fixedSpelling_kind op))
  | assign _ _ ht _ ih ih' =>
    simp only [List.forall_mem_append, List.forall_mem_cons] at hw
    simp only [Expr.parts, List.forall_mem_append, List.forall_mem_cons] at hprintable
    obtain ⟨hw, hspelling, hw'⟩ := hw
    exact (ih hw hprintable.2.1).assign (ih' hw' hprintable.2.2)
      (Token.unplaced_eq_mark ht hspelling rfl)
  | call _ _ hw' ih ihparts =>
    simp only [List.forall_mem_append] at hw
    simp only [Expr.parts, List.forall_mem_append, List.forall_mem_cons] at hprintable
    exact (ih hw.1 hprintable.2.1).call
      (Expr.legible_parts ihparts hw'.subset hw.2 hprintable.2.2)
  | method _ _ hname _ hw' ih ihparts =>
    simp only [List.forall_mem_append, List.forall_mem_cons] at hw
    simp only [Expr.parts, List.forall_mem_append, List.forall_mem_cons] at hprintable
    obtain ⟨hw, -, hspelling, hargs⟩ := hw
    exact (ih hw hprintable.2.1).method hname hspelling
      (Expr.legible_parts ihparts hw'.subset hargs hprintable.2.2)
  | index _ hopening _ _ ih ih' =>
    simp only [List.forall_mem_append, List.forall_mem_cons] at hw
    simp only [Expr.parts, List.forall_mem_append, List.forall_mem_cons] at hprintable
    obtain ⟨⟨hw, hspelling, hw'⟩, -⟩ := hw
    exact (ih hw hprintable.2.1).index (ih' hw' hprintable.2.2)
      (Token.unplaced_eq_mark hopening hspelling rfl)
  | member _ _ hname ih =>
    simp only [List.forall_mem_append, List.forall_mem_cons] at hw
    obtain ⟨hw, -, hspelling, -⟩ := hw
    exact (ih hw (List.forall_mem_cons.mp hprintable).2).member hname hspelling
  | array hopening _ hw' _ ih =>
    simp only [List.cons_append, List.forall_mem_append, List.forall_mem_cons] at hw
    obtain ⟨hspelling, hw, -⟩ := hw
    exact Expr.legible_array
      (Expr.legible_parts ih hw'.subset hw (List.forall_mem_cons.mp hprintable).2)
      (Token.unplaced_eq_mark hopening hspelling rfl)
  | construct hword hname _ hw' ih =>
    simp only [List.forall_mem_cons] at hw
    obtain ⟨hspelling, hspelling', hw⟩ := hw
    exact Expr.legible_construct (hname ▸ hspelling')
      (Expr.legible_parts ih hw'.subset hw (List.forall_mem_cons.mp hprintable).2)
      (Token.unplaced_eq_mark hword hspelling rfl)

end Script
