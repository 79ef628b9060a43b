import Script.Token.Lexer
import Mathlib.Data.List.TakeWhile

/-!
# How tokens are spelled

The texts that each kind of token can have, said without the scanner. A token that has been
scanned is spelled like its kind, and a spelling of a kind scans to a token of that kind where the
text behind it does not carry it on. `Token.Spells` says this of a text of many tokens, so that
texts can be put together piece by piece.
-/

namespace Script

/-- What holds of the 256 bytes by inspection. -/
theorem Byte.forall_of_fin {p : UInt8 → Prop} (h : ∀ n : Fin 256, p (UInt8.ofFin n)) (b : UInt8) :
    p b :=
  h b.toFin

/-! ## Numerals -/

/-- A run of decimal digits, not empty. -/
def Digits (ds : Text) : Prop :=
  ds ≠ [] ∧ ∀ b ∈ ds, Byte.isDigit b = true

/-- A point and digits, or nothing. -/
inductive Fraction : Text → Prop
  | none : Fraction []
  | some {ds} : Digits ds → Fraction (Byte.dot :: ds)

/-- The letter for an exponent, an optional sign and digits, or nothing. -/
inductive Exponent : Text → Prop
  | none : Exponent []
  | some {mark sign ds} : mark = 101 ∨ mark = 69 →
      sign = [] ∨ sign = [Byte.plus] ∨ sign = [Byte.minus] → Digits ds →
      Exponent (mark :: (sign ++ ds))

inductive Numeral : Text → Prop
  | intro {whole part exponent} : Digits whole → Fraction part → Exponent exponent →
      Numeral (whole ++ part ++ exponent)

theorem Numeral.ne_nil {text : Text} (h : Numeral text) : text ≠ [] := by
  obtain ⟨⟨hne, -⟩, -, -⟩ := h
  simp [hne]

theorem Digits.newline_notMem {ds : Text} (h : Digits ds) : Byte.newline ∉ ds :=
  fun hmem => by cases h.2 _ hmem

theorem Numeral.newline_notMem {word : Text} (h : Numeral word) : Byte.newline ∉ word := by
  obtain ⟨hwhole, hpart, hexponent⟩ := h
  simp only [List.mem_append, not_or]
  refine ⟨⟨hwhole.newline_notMem, ?_⟩, ?_⟩
  · cases hpart with
    | none => exact List.not_mem_nil
    | some hds => exact List.not_mem_cons_of_ne_of_not_mem (by decide) hds.newline_notMem
  · cases hexponent with
    | none => exact List.not_mem_nil
    | some hmark hsign hds =>
      refine List.not_mem_cons_of_ne_of_not_mem ?_ ?_
      · rcases hmark with rfl | rfl <;> decide
      · rw [List.mem_append, not_or]
        refine ⟨?_, hds.newline_notMem⟩
        rcases hsign with rfl | rfl | rfl <;> decide

namespace Lexeme

/-- What may stand behind a name or a numeral without carrying it on. -/
structure Calm (rest : Text) : Prop where
  head : ∀ b ∈ rest.head?, Byte.isNamePart b = false
  fraction : fractionPart rest = []

/-- A run of bytes ends where the next byte is of another kind. -/
theorem takeWhile_run {p : UInt8 → Bool} {run rest : Text} (hrun : ∀ b ∈ run, p b = true)
    (hrest : ∀ b ∈ rest.head?, p b = false) : (run ++ rest).takeWhile p = run := by
  rw [List.takeWhile_append_of_pos hrun]
  cases rest with
  | nil => rw [List.takeWhile_nil, List.append_nil]
  | cons b rest =>
    rw [List.takeWhile_cons_of_neg (by simp [hrest b rfl]), List.append_nil]

theorem digits_takeWhile {text : Text} (h : (text.takeWhile Byte.isDigit).isEmpty = false) :
    Digits (text.takeWhile Byte.isDigit) :=
  ⟨by simpa using h, fun _ => List.mem_takeWhile_imp⟩

/-! ### What is read is a numeral -/

theorem fractionPart_fraction (text : Text) : Fraction (fractionPart text) := by
  unfold fractionPart
  split
  · dsimp only
    split
    · exact .none
    next h => exact .some (digits_takeWhile (by simpa using h))
  · exact .none

theorem signPart_sign (text : Text) :
    signPart text = [] ∨ signPart text = [Byte.plus] ∨ signPart text = [Byte.minus] := by
  unfold signPart
  split
  · split
    next h => rcases h with rfl | rfl <;> simp
    · simp
  · simp

theorem exponentPart_exponent (text : Text) : Exponent (exponentPart text) := by
  unfold exponentPart
  split
  · exact .none
  · dsimp only
    split
    next h => exact .some h.1 (signPart_sign _) (digits_takeWhile (by simpa using h.2))
    · exact .none

theorem numberSpelling_numeral {b : UInt8} (hb : Byte.isDigit b = true) (rest : Text) :
    Numeral (numberSpelling (b :: rest)) := by
  refine .intro (digits_takeWhile ?_) (fractionPart_fraction _) (exponentPart_exponent _)
  simp [hb]

/-! ### A numeral is read up to its end -/

theorem isDigit_of_isNamePart {b : UInt8} (h : Byte.isNamePart b = false) :
    Byte.isDigit b = false :=
  (Bool.or_eq_false_iff.mp h).2

theorem exponentPart_calm {rest : Text} (h : Calm rest) : exponentPart rest = [] := by
  cases rest with
  | nil => rfl
  | cons b rest =>
    have hb := h.head b rfl
    have hmark : ¬ (b = 101 ∨ b = 69) := by
      rintro (rfl | rfl) <;> exact absurd hb (by decide)
    simp [exponentPart, hmark]

theorem signPart_append {sign ds : Text}
    (hsign : sign = [] ∨ sign = [Byte.plus] ∨ sign = [Byte.minus]) (hds : Digits ds)
    (rest : Text) : signPart (sign ++ (ds ++ rest)) = sign := by
  obtain ⟨d, ds, rfl⟩ := List.exists_cons_of_ne_nil hds.1
  have hd := hds.2 d List.mem_cons_self
  have hne : ¬ (d = Byte.plus ∨ d = Byte.minus) := by
    rintro (rfl | rfl) <;> exact absurd hd (by decide)
  rcases hsign with rfl | rfl | rfl <;> simp [signPart, hne]

theorem exponentPart_append {exponent rest : Text} (h : Exponent exponent) (hrest : Calm rest) :
    exponentPart (exponent ++ rest) = exponent := by
  cases h with
  | none => exact exponentPart_calm hrest
  | @some mark sign ds hmark hsign hds =>
    have hrun : (ds ++ rest).takeWhile Byte.isDigit = ds :=
      takeWhile_run hds.2 fun b hb => isDigit_of_isNamePart (hrest.head b hb)
    simp only [List.cons_append, List.append_assoc, exponentPart, signPart_append hsign hds,
      List.drop_left, hrun]
    rw [if_pos ⟨hmark, by simpa using hds.1⟩]

/-- An exponent begins neither like more digits nor like a fraction. -/
theorem exponent_plain {exponent : Text} (h : Exponent exponent) (hne : exponent ≠ [])
    (rest : Text) :
    (∀ b ∈ (exponent ++ rest).head?, Byte.isDigit b = false) ∧
      fractionPart (exponent ++ rest) = [] := by
  cases h with
  | none => exact absurd rfl hne
  | some hmark _ _ => rcases hmark with rfl | rfl <;> exact ⟨by simp; decide, rfl⟩

/-- Neither the letter of an exponent nor what follows a numeral makes a fraction. -/
theorem Exponent.calm {exponent rest : Text} (h : Exponent exponent) (hrest : Calm rest) :
    (∀ b ∈ (exponent ++ rest).head?, Byte.isDigit b = false) ∧
      fractionPart (exponent ++ rest) = [] := by
  by_cases hne : exponent = []
  · subst hne
    exact ⟨fun b hb => isDigit_of_isNamePart (hrest.head b hb), hrest.fraction⟩
  · exact exponent_plain h hne rest

theorem fractionPart_dot (rest : Text) :
    fractionPart (Byte.dot :: rest) = if (rest.takeWhile Byte.isDigit).isEmpty then []
      else Byte.dot :: rest.takeWhile Byte.isDigit :=
  rfl

theorem fractionPart_append {part rest : Text} (h : Fraction part)
    (hdigit : ∀ b ∈ rest.head?, Byte.isDigit b = false) (hrest : fractionPart rest = []) :
    fractionPart (part ++ rest) = part := by
  cases h with
  | none => exact hrest
  | some hds =>
    rw [List.cons_append, fractionPart_dot, takeWhile_run hds.2 hdigit,
      if_neg (by simpa using hds.1)]

theorem numberSpelling_append {numeral rest : Text} (h : Numeral numeral) (hrest : Calm rest) :
    numberSpelling (numeral ++ rest) = numeral := by
  obtain ⟨hwhole, hpart, hexponent⟩ := h
  obtain ⟨hdigit, hfraction⟩ := Exponent.calm hexponent hrest
  rename_i whole part exponent
  have htail : ∀ b ∈ (part ++ (exponent ++ rest)).head?, Byte.isDigit b = false := by
    cases hpart with
    | none => exact hdigit
    | some _ => simp; decide
  simp only [numberSpelling, List.append_assoc, takeWhile_run hwhole.2 htail, List.drop_left,
    fractionPart_append hpart hdigit hfraction]
  rw [← List.length_append, ← List.append_assoc whole part (exponent ++ rest), List.drop_left,
    exponentPart_append hexponent hrest]

/-! ## Single tokens -/

/-- The spellings of each kind of token. A string may stand for any text. -/
inductive Spelling : Token.Kind → Text → Prop
  | pair {b kind} : pairOperator? b = some kind → Spelling kind [b, Byte.equals]
  | punctuation {b kind} : punctuation? b = some kind → Spelling kind [b]
  | string {value} : Spelling .string value
  | numeral {text} : Numeral text → Spelling .number text
  | name {b rest} : startsName b rest = true → (∀ c ∈ rest, Byte.isNamePart c = true) →
      Spelling ((keywords.lookup (b :: rest)).getD .identifier) (b :: rest)

theorem startsName_takeWhile {b : UInt8} {rest : Text} (h : startsName b rest = true) :
    startsName b (rest.takeWhile Byte.isNamePart) = true := by
  cases rest with
  | nil => exact h
  | cons c rest =>
    cases hc : Byte.isNamePart c with
    | true => simpa [startsName, List.takeWhile_cons, hc] using h
    | false =>
      have hstart : Byte.isNameStart c = false := (Bool.or_eq_false_iff.mp hc).1
      simpa [startsName, List.takeWhile_cons, hc, hstart] using h

/-- A token that has been read is spelled like its kind. -/
theorem Spelling.of_next {b : UInt8} {rest : Text} {kind : Token.Kind} {value : Text} {n : Nat}
    (h : next b rest = .ok (.token kind value n)) : Spelling kind value := by
  unfold next at h
  split at h
  · cases h
  split at h
  · cases h
  split at h
  · split at h <;> cases h
  split at h
  next kind hpair =>
    cases h
    split at hpair
    · exact .pair hpair
    · cases hpair
  next =>
    split at h
    next kind hb =>
      cases h
      exact .punctuation hb
    next =>
      split at h
      next =>
        cases hquoted : quoted b 1 rest <;> rw [hquoted] at h <;> cases h
        exact .string
      split at h
      next hb =>
        cases h
        exact .numeral (numberSpelling_numeral hb rest)
      split at h
      next hb =>
        cases h
        exact .name (startsName_takeWhile hb) fun _ => List.mem_takeWhile_imp
      · cases h

/-- The spelling of a kind that has only one. -/
def fixedSpelling? : Token.Kind → Option Text
  | .funcWord => some "func"
  | .classWord => some "class"
  | .newWord => some "new"
  | .returnWord => some "return"
  | .ifWord => some "if"
  | .elseifWord => some "elseif"
  | .elseWord => some "else"
  | .whileWord => some "while"
  | .forWord => some "for"
  | .null => some "null"
  | .semicolon => some ";"
  | .comma => some ","
  | .dot => some "."
  | .openParen => some "("
  | .closeParen => some ")"
  | .openBrace => some "\x7b"
  | .closeBrace => some "\x7d"
  | .openBracket => some "["
  | .closeBracket => some "]"
  | .assign => some "="
  | .plus => some "+"
  | .minus => some "-"
  | .star => some "*"
  | .slash => some "/"
  | .equal => some "=="
  | .notEqual => some "!="
  | .greater => some ">"
  | .greaterEqual => some ">="
  | .less => some "<"
  | .lessEqual => some "<="
  | .identifier | .number | .string | .boolean | .endOfInput | .unknown => none

theorem fixedSpelling_pair {b : UInt8} {kind : Token.Kind} (h : pairOperator? b = some kind) :
    fixedSpelling? kind = some [b, Byte.equals] := by
  unfold pairOperator? at h
  split at h <;> cases h <;> rfl

theorem fixedSpelling_punctuation (b : UInt8) :
    ∀ kind ∈ punctuation? b, fixedSpelling? kind = some [b] :=
  Byte.forall_of_fin (p := fun b => ∀ kind ∈ punctuation? b, fixedSpelling? kind = some [b])
    (by decide +kernel) b

theorem mem_keywords {name : Text} {kind : Token.Kind} (h : keywords.lookup name = some kind) :
    (name, kind) ∈ keywords := by
  obtain ⟨before, after, hkeywords, -⟩ := List.lookup_eq_some_iff.mp h
  rw [hkeywords]
  exact List.mem_append_right _ List.mem_cons_self

theorem fixedSpelling_keyword :
    ∀ word ∈ keywords, fixedSpelling? word.2 = some word.1 ∨
      word.2 = .boolean ∧ (word.1 = "true" ∨ word.1 = "false") := by
  decide

/-- What the kind of a token says about its spelling. -/
theorem Spelling.cases {kind : Token.Kind} {value : Text} (h : Spelling kind value) :
    fixedSpelling? kind = some value ∨ kind = .string ∨ (kind = .number ∧ Numeral value) ∨
      (kind = .boolean ∧ (value = "true" ∨ value = "false")) ∨
      (kind = .identifier ∧ ∃ b rest, value = b :: rest ∧ startsName b rest = true ∧
        (∀ c ∈ rest, Byte.isNamePart c = true) ∧ keywords.lookup value = none) := by
  cases h with
  | pair hb => exact .inl (fixedSpelling_pair hb)
  | punctuation hb => exact .inl (fixedSpelling_punctuation _ _ hb)
  | string => exact .inr (.inl rfl)
  | numeral hvalue => exact .inr (.inr (.inl ⟨rfl, hvalue⟩))
  | @name b rest hb hrest =>
    cases hlookup : keywords.lookup (b :: rest) with
    | none => exact .inr (.inr (.inr (.inr ⟨rfl, b, rest, rfl, hb, hrest, rfl⟩)))
    | some kind =>
      rcases fixedSpelling_keyword _ (mem_keywords hlookup) with hfixed | hboolean
      · exact .inl hfixed
      · exact .inr (.inr (.inr (.inl hboolean)))

theorem Spelling.fixed {kind : Token.Kind} {value text : Text} (h : Spelling kind value)
    (hfixed : fixedSpelling? kind = some text) : value = text := by
  rcases h.cases with h | rfl | ⟨rfl, -⟩ | ⟨rfl, -⟩ | ⟨rfl, -⟩
  · exact Option.some.inj (h.symm.trans hfixed)
  all_goals cases hfixed

theorem Spelling.kind_ne_endOfInput {kind : Token.Kind} {value : Text} (h : Spelling kind value) :
    kind ≠ .endOfInput := by
  rintro rfl
  rcases h.cases with h | h | ⟨h, -⟩ | ⟨h, -⟩ | ⟨h, -⟩ <;> cases h

theorem Spelling.number {value : Text} (h : Spelling .number value) : Numeral value := by
  rcases h.cases with h | h | ⟨-, hvalue⟩ | ⟨h, -⟩ | ⟨h, -⟩
  case inr.inr.inl => exact hvalue
  all_goals cases h

theorem Spelling.boolean {value : Text} (h : Spelling .boolean value) :
    value = "true" ∨ value = "false" := by
  rcases h.cases with h | h | ⟨h, -⟩ | ⟨-, hvalue⟩ | ⟨h, -⟩
  case inr.inr.inr.inl => exact hvalue
  all_goals cases h

theorem Spelling.identifier {value : Text} (h : Spelling .identifier value) :
    ∃ b rest, value = b :: rest ∧ startsName b rest = true ∧
      (∀ c ∈ rest, Byte.isNamePart c = true) ∧ keywords.lookup value = none := by
  rcases h.cases with h | h | ⟨h, -⟩ | ⟨h, -⟩ | ⟨-, hname⟩
  case inr.inr.inr.inr => exact hname
  all_goals cases h

/-! ### Reading a spelling again -/

theorem punctuation_plain (b : UInt8) :
    (punctuation? b).isSome = true → Byte.isBlank b = false ∧ b ≠ Byte.hash :=
  Byte.forall_of_fin (p := fun b =>
    (punctuation? b).isSome = true → Byte.isBlank b = false ∧ b ≠ Byte.hash) (by decide +kernel) b

theorem no_pair {b : UInt8} {rest : Text}
    (h : pairOperator? b = none ∨ rest.head? ≠ some Byte.equals) :
    (if rest.head? = some Byte.equals then pairOperator? b else none) = none := by
  rcases h with h | h
  · rw [h, ite_self]
  · rw [if_neg h]

/-- A slash must not begin a comment, and no equals sign may make a pair. -/
theorem next_single {b : UInt8} {kind : Token.Kind} (h : punctuation? b = some kind) {rest : Text}
    (hslash : b = Byte.slash → rest.head? ≠ some Byte.slash ∧ rest.head? ≠ some Byte.star)
    (hpair : pairOperator? b = none ∨ rest.head? ≠ some Byte.equals) :
    next b rest = .ok (spelled kind [b]) := by
  obtain ⟨hblank, hhash⟩ := punctuation_plain b (by simp [h])
  have hline : ¬ (b = Byte.hash ∨ (b = Byte.slash ∧ rest.head? = some Byte.slash)) := by
    rintro (hb | ⟨hb, hc⟩)
    · exact hhash hb
    · exact (hslash hb).1 hc
  have hblock : ¬ (b = Byte.slash ∧ rest.head? = some Byte.star) := fun ⟨hb, hc⟩ =>
    (hslash hb).2 hc
  rw [next, hblank, if_neg (by simp), if_neg hline, if_neg hblock, no_pair hpair]
  simp only [h]

/-- A space behind a byte is enough. -/
theorem next_punctuation {b : UInt8} {kind : Token.Kind} (h : punctuation? b = some kind)
    {rest : Text} (hslash : b = Byte.slash → rest.head? = some Byte.space)
    (hpair : pairOperator? b = none ∨ rest.head? = some Byte.space) :
    next b rest = .ok (spelled kind [b]) := by
  apply next_single h
  · intro hb
    rw [hslash hb]
    decide
  · rcases hpair with hpair | hpair
    · exact .inl hpair
    · rw [hpair]
      exact .inr (by decide)

theorem pair_plain (b : UInt8) :
    (pairOperator? b).isSome = true → Byte.isBlank b = false ∧ b ≠ Byte.hash ∧ b ≠ Byte.slash :=
  Byte.forall_of_fin (p := fun b =>
    (pairOperator? b).isSome = true → Byte.isBlank b = false ∧ b ≠ Byte.hash ∧ b ≠ Byte.slash)
    (by decide +kernel) b

theorem next_pair {b : UInt8} {kind : Token.Kind} (h : pairOperator? b = some kind)
    (rest : Text) : next b (Byte.equals :: rest) = .ok (spelled kind [b, Byte.equals]) := by
  obtain ⟨hblank, hhash, hslash⟩ := pair_plain b (by simp [h])
  rw [next, hblank, if_neg (by simp), if_neg (by simp [hhash, hslash]), if_neg (by simp [hslash])]
  simp only [List.head?_cons, if_true, h]

/-- Bytes that begin nothing but a number or a name. -/
def Word (b : UInt8) : Prop :=
  Byte.isBlank b = false ∧ b ≠ Byte.hash ∧ b ≠ Byte.slash ∧ pairOperator? b = none ∧
    punctuation? b = none ∧ b ≠ Byte.doubleQuote ∧ b ≠ Byte.singleQuote

instance (b : UInt8) : Decidable (Word b) :=
  inferInstanceAs (Decidable (_ ∧ _))

theorem next_word {b : UInt8} (h : Word b) (rest : Text) :
    next b rest =
      if Byte.isDigit b then .ok (spelled .number (numberSpelling (b :: rest)))
      else if startsName b rest then .ok (ofName (nameSpelling b rest))
      else .error ⟨.unexpectedByte b, 0, 1⟩ := by
  obtain ⟨hblank, hhash, hslash, hpair, hpunctuation, hdouble, hsingle⟩ := h
  rw [next, hblank, if_neg (by simp), if_neg (by simp [hhash, hslash]), if_neg (by simp [hslash]),
    hpair, ite_self]
  simp only [hpunctuation]
  rw [if_neg (by simp [hdouble, hsingle])]

theorem word_of_isDigit (b : UInt8) : Byte.isDigit b = true → Word b :=
  Byte.forall_of_fin (p := fun b => Byte.isDigit b = true → Word b) (by decide +kernel) b

theorem word_of_nameStart (b : UInt8) :
    Byte.isNameStart b = true ∨ b = Byte.tilde → Word b ∧ Byte.isDigit b = false :=
  Byte.forall_of_fin (p := fun b =>
    Byte.isNameStart b = true ∨ b = Byte.tilde → Word b ∧ Byte.isDigit b = false)
    (by decide +kernel) b

theorem isDigit_of_numeral {b : UInt8} {text : Text} (h : Numeral (b :: text)) :
    Byte.isDigit b = true := by
  generalize htext : b :: text = numeral at h
  obtain ⟨⟨hne, hwhole⟩, -, -⟩ := h
  obtain ⟨d, ds, rfl⟩ := List.exists_cons_of_ne_nil hne
  obtain ⟨rfl, -⟩ := List.cons.inj htext
  exact hwhole b List.mem_cons_self

theorem next_numeral {b : UInt8} {text rest : Text} (h : Numeral (b :: text)) (hrest : Calm rest) :
    next b (text ++ rest) = .ok (spelled .number (b :: text)) := by
  have hb := isDigit_of_numeral h
  rw [next_word (word_of_isDigit b hb), if_pos hb, ← List.cons_append,
    numberSpelling_append h hrest]

theorem word_of_startsName {b : UInt8} {text : Text} (h : startsName b text = true) :
    Word b ∧ Byte.isDigit b = false := by
  simp only [startsName, Bool.or_eq_true, Bool.and_eq_true, beq_iff_eq] at h
  exact word_of_nameStart b (h.imp id And.left)

theorem startsName_append {b : UInt8} {text : Text} (h : startsName b text = true) (rest : Text) :
    startsName b (text ++ rest) = true := by
  cases text with
  | nil => simp_all [startsName]
  | cons c text => exact h

theorem next_name {b : UInt8} {text rest : Text} (hb : startsName b text = true)
    (htext : ∀ c ∈ text, Byte.isNamePart c = true) (hrest : Calm rest) :
    next b (text ++ rest) = .ok (ofName (b :: text)) := by
  obtain ⟨hword, hdigit⟩ := word_of_startsName hb
  rw [next_word hword, hdigit, if_neg (by simp), if_pos (startsName_append hb rest), nameSpelling,
    takeWhile_run htext hrest.head]

/-- The bytes that open a string literal and close it. -/
def Quote (b : UInt8) : Prop :=
  b = Byte.doubleQuote ∨ b = Byte.singleQuote

/-- What stands between quotes, and the text it denotes. -/
inductive Decodes (quote : UInt8) : Text → Text → Prop
  | nil : Decodes quote [] []
  | plain {b content value} : b ≠ quote → b ≠ Byte.newline → b ≠ Byte.backslash →
      Decodes quote content value → Decodes quote (b :: content) (b :: value)
  | escape {e c content value} : escapes.lookup e = some c → Decodes quote content value →
      Decodes quote (Byte.backslash :: e :: content) (c :: value)

theorem next_quote {b : UInt8} (h : Quote b) (rest : Text) :
    next b rest = (quoted b 1 rest).map fun (value, n) => .token .string value n := by
  have hpair : pairOperator? b = none := by rcases h with rfl | rfl <;> rfl
  have hpunctuation : punctuation? b = none := by rcases h with rfl | rfl <;> decide
  have hslash : b ≠ Byte.slash := by rcases h with rfl | rfl <;> decide
  have hhash : b ≠ Byte.hash := by rcases h with rfl | rfl <;> decide
  have hblank : Byte.isBlank b = false := by rcases h with rfl | rfl <;> decide
  rw [next, hblank, if_neg (by simp), if_neg (by simp [hhash, hslash]), if_neg (by simp [hslash]),
    hpair, ite_self]
  simp only [hpunctuation]
  exact if_pos h

section

variable {quote : UInt8} (hquote : Quote quote)
include hquote

theorem quote_ne_backslash : Byte.backslash ≠ quote := by
  rcases hquote with rfl | rfl <;> decide

theorem quoted_of_decodes {content value : Text} (h : Decodes quote content value) (n : Nat)
    (rest : Text) :
    quoted quote n (content ++ rest) =
      (quoted quote (n + content.length) rest).map fun r => (value ++ r.1, r.2) := by
  induction h generalizing n with
  | nil => exact (congrFun Except.map_id _).symm
  | @plain b content value hne hnewline hbackslash _ ih =>
    rw [List.cons_append, quoted.eq_def]
    simp only [if_neg hne, if_neg hnewline, if_neg hbackslash, ih, List.length_cons]
    rw [Nat.add_right_comm n 1, Nat.add_assoc n]
    cases quoted quote (n + (content.length + 1)) rest <;> rfl
  | @escape e c content value hlookup _ ih =>
    rw [List.cons_append, List.cons_append, quoted.eq_def]
    simp only [if_neg (quote_ne_backslash hquote),
      if_neg (by decide : Byte.backslash ≠ Byte.newline), if_true, hlookup, ih, List.length_cons]
    rw [Nat.add_right_comm n 2, Nat.add_assoc n]
    cases quoted quote (n + (content.length + 2)) rest <;> rfl

theorem quoted_closed {content value : Text} (h : Decodes quote content value) (n : Nat)
    (rest : Text) :
    quoted quote n (content ++ quote :: rest) = .ok (value, n + content.length + 1) := by
  rw [quoted_of_decodes hquote h, quoted.eq_def]
  simp [Except.map]

end

theorem next_string {value : Text}
    (hvalue : ∀ b ∈ value, b ≠ Byte.doubleQuote ∧ b ≠ Byte.backslash ∧ b ≠ Byte.newline)
    (rest : Text) :
    next Byte.doubleQuote (value ++ Byte.doubleQuote :: rest) =
      .ok (.token .string value (value.length + 2)) := by
  have hdecodes : Decodes Byte.doubleQuote value value := by
    induction value with
    | nil => exact .nil
    | cons b value ih =>
      obtain ⟨⟨hquote, hbackslash, hnewline⟩, hvalue⟩ := List.forall_mem_cons.mp hvalue
      exact .plain hquote hnewline hbackslash (ih hvalue)
  simp only [next_quote (.inl rfl), quoted_closed (.inl rfl) hdecodes, Except.map]
  congr 2
  omega

end Lexeme

/-! ## Runs of tokens -/

theorem Position.advance_append (p : Position) (text text' : Text) :
    p.advance (text ++ text') = (p.advance text).advance text' :=
  List.foldl_append

/-- A token as it is without its place. -/
def Token.unplaced (t : Token) : Token :=
  { t with location := {} }

namespace Token

theorem scanFrom_pending (file : Text) (source : Option Source) (p : Position) (text rest : Text) :
    scanFrom file source p text.length (text ++ rest) =
      scanFrom file source (p.advance text) 0 rest := by
  induction text generalizing p with
  | nil => rfl
  | cons b text ih => exact ih (p.step b)

/-- Before `rest`, a text reads as the given tokens wherever it is placed. -/
def Spells (text : Text) (w : List Token) (rest : Text) : Prop :=
  ∀ file source p, ∃ w', w'.map unplaced = w ∧
    scanFrom file source p 0 (text ++ rest) =
      (scanFrom file source (p.advance text) 0 rest).map (w' ++ ·)

theorem Spells.append {text text' rest : Text} {w w' : List Token}
    (h : Spells text w (text' ++ rest)) (h' : Spells text' w' rest) :
    Spells (text ++ text') (w ++ w') rest := by
  intro file source p
  obtain ⟨v, hv, hscan⟩ := h file source p
  obtain ⟨v', hv', hscan'⟩ := h' file source (p.advance text)
  refine ⟨v ++ v', by simp [hv, hv'], ?_⟩
  rw [List.append_assoc, hscan, hscan', Position.advance_append]
  cases scanFrom file source ((p.advance text).advance text') 0 rest with
  | error _ => rfl
  | ok tokens => simp [Except.map]

theorem spells_token {b : UInt8} {text rest value : Text} {kind : Kind}
    (h : Lexeme.next b (text ++ rest) = .ok (.token kind value (text.length + 1))) :
    Spells (b :: text) [⟨kind, value, {}⟩] rest := by
  intro file source p
  refine ⟨[⟨kind, value, locate file source p (text.length + 1)⟩], rfl, ?_⟩
  rw [List.cons_append, scanFrom, h]
  exact congrArg (Except.map _) (scanFrom_pending file source (p.step b) text rest)

theorem spells_nil (rest : Text) : Spells [] [] rest :=
  fun _ _ _ => ⟨[], rfl, (congrFun Except.map_id _).symm⟩

theorem spells_space (rest : Text) : Spells [Byte.space] [] rest := by
  intro file source p
  refine ⟨[], rfl, ?_⟩
  exact (congrFun Except.map_id _).symm

/-- A byte that is a token by itself, whatever follows it. -/
theorem spells_punctuation {b : UInt8} {kind : Kind} (h : Lexeme.punctuation? b = some kind)
    (hslash : b ≠ Byte.slash) (hpair : Lexeme.pairOperator? b = none) (rest : Text) :
    Spells [b] [⟨kind, [b], {}⟩] rest :=
  spells_token (Lexeme.next_punctuation h (absurd · hslash) (.inl hpair))

theorem spells_numeral {text rest : Text} (h : Numeral text) (hrest : Lexeme.Calm rest) :
    Spells text [⟨.number, text, {}⟩] rest := by
  obtain ⟨b, text, rfl⟩ := List.exists_cons_of_ne_nil h.ne_nil
  exact spells_token (Lexeme.next_numeral h hrest)

theorem spells_name {b : UInt8} {text rest : Text} (hb : Lexeme.startsName b text = true)
    (htext : ∀ c ∈ text, Byte.isNamePart c = true) (hrest : Lexeme.Calm rest) :
    Spells (b :: text) [⟨(Lexeme.keywords.lookup (b :: text)).getD .identifier, b :: text, {}⟩]
      rest :=
  spells_token (Lexeme.next_name hb htext hrest)

theorem spells_string {value : Text}
    (hvalue : ∀ b ∈ value, b ≠ Byte.doubleQuote ∧ b ≠ Byte.backslash ∧ b ≠ Byte.newline)
    (rest : Text) :
    Spells (Byte.doubleQuote :: (value ++ [Byte.doubleQuote])) [⟨.string, value, {}⟩] rest := by
  refine spells_token ?_
  rw [List.append_assoc, List.singleton_append, Lexeme.next_string hvalue, List.length_append]
  rfl

/-- Every token of a text but the last is spelled like its kind, and the last ends the input. -/
theorem scanFrom_spelling {file : Text} {source : Option Source} {p : Position} {n : Nat}
    {text : Text} {tokens : List Token} (h : scanFrom file source p n text = .ok tokens) :
    ∃ w last, tokens = w ++ [last] ∧ last.kind = .endOfInput ∧
      ∀ t ∈ w, Lexeme.Spelling t.kind t.value := by
  induction text generalizing p n tokens with
  | nil =>
    cases h
    exact ⟨[], _, rfl, rfl, by simp⟩
  | cons b text ih =>
    cases n with
    | succ n => exact ih h
    | zero =>
      cases hnext : Lexeme.next b text with
      | error m =>
        simp only [scanFrom, hnext] at h
        cases h
      | ok lexeme =>
        cases lexeme with
        | gap n =>
          simp only [scanFrom, hnext] at h
          exact ih h
        | token kind value n =>
          simp only [scanFrom, hnext] at h
          cases hscan : scanFrom file source (p.step b) (n - 1) text with
          | error _ =>
            rw [hscan] at h
            cases h
          | ok later =>
            rw [hscan] at h
            cases h
            obtain ⟨w, last, rfl, hlast, hw⟩ := ih hscan
            exact ⟨_ :: w, last, rfl, hlast, List.forall_mem_cons.mpr ⟨.of_next hnext, hw⟩⟩

end Token

end Script
