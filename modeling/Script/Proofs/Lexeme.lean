import Script.Proofs.Spelling

/-!
# What stands at the front of a text

The pieces that a text is cut into, said without the scanner: blanks, comments and tokens, each
with the text that may stand behind it. Numbers, names and operators are as long as they can be. A
fault is a text that begins with no piece, and says where it goes wrong.

`next_eq_ok_iff` and `next_eq_error_iff` state that the scanner finds exactly these.
-/

namespace Script

namespace Lexeme

/-! ## Pieces -/

/-- A word of a class in front of `rest`, so that no longer word of the class begins there. -/
structure Longest (words : Text → Prop) (word rest : Text) : Prop where
  mem : words word
  length_le : ∀ other, words other → other <+: word ++ rest → other.length ≤ word.length

/-- A name or a keyword. -/
def Name (word : Text) : Prop :=
  ∃ b rest, word = b :: rest ∧ startsName b rest = true ∧ ∀ c ∈ rest, Byte.isNamePart c = true

/-- Operators and punctuation. -/
inductive Mark : Token.Kind → Text → Prop
  | pair {b kind} : pairOperator? b = some kind → Mark kind [b, Byte.equals]
  | single {b kind} : punctuation? b = some kind → Mark kind [b]

/-- Both slashes, or a slash and a star. -/
def OpensComment (text : Text) : Prop :=
  [Byte.slash, Byte.slash] <+: text ∨ [Byte.slash, Byte.star] <+: text

/-- The end of a block comment. -/
def commentClose : Text :=
  [Byte.star, Byte.slash]

/-- A blank or a whole comment in front of `rest`. A comment of one line goes on to the end of its
line, and a block comment to the first place that closes it. -/
inductive Gap : Text → Text → Prop
  | blank {b rest} : Byte.isBlank b = true → Gap [b] rest
  | line {opening body rest} : opening = [Byte.hash] ∨ opening = [Byte.slash, Byte.slash] →
      Byte.newline ∉ body → (∀ b ∈ rest.head?, b = Byte.newline) → Gap (opening ++ body) rest
  | block {body rest} : ¬ commentClose <:+: body →
      Gap (Byte.slash :: Byte.star :: (body ++ commentClose)) rest

/-- A token in front of `rest`: its kind, its value and its span. -/
inductive Reading : Token.Kind → Text → Text → Text → Prop
  | mark {kind word rest} : Mark kind word → Longest (fun w => ∃ kind, Mark kind w) word rest →
      ¬ OpensComment (word ++ rest) → Reading kind word word rest
  | string {quote content value rest} : Quote quote → Decodes quote content value →
      Reading .string value (quote :: (content ++ [quote])) rest
  | number {word rest} : Longest Numeral word rest → Reading .number word word rest
  | name {word rest} : Longest Name word rest →
      Reading ((keywords.lookup word).getD .identifier) word word rest

/-- A lexeme stands in front of `rest` as the given word. -/
def Fronts : Lexeme → Text → Text → Prop
  | .gap n, word, rest => n = word.length ∧ Gap word rest
  | .token kind value n, word, rest => n = word.length ∧ Reading kind value word rest

/-! ## Faults -/

/-- How a piece can begin. The slash among the marks also begins comments. -/
inductive Opening : Text → Prop
  | blank {b} : Byte.isBlank b = true → Opening [b]
  | comment : Opening [Byte.hash]
  | mark {kind word} : Mark kind word → Opening word
  | quote {b} : Quote b → Opening [b]
  | digit {b} : Byte.isDigit b = true → Opening [b]
  | name {word} : Name word → Opening word

/-- A text in which no piece can be read, with the reason: nothing begins there, a comment is never
closed, or a string meets a newline, the end of the text or an unknown escape before it is closed.
A backslash at the end of the text counts as one before a NUL. -/
inductive Fault : Text → Misread → Prop
  | byte {b rest} : (∀ word, Opening word → ¬ word <+: b :: rest) →
      Fault (b :: rest) ⟨.unexpectedByte b, 0, 1⟩
  | comment {rest} : ¬ commentClose <:+: rest →
      Fault (Byte.slash :: Byte.star :: rest) ⟨.unterminatedComment, 0, 2⟩
  | string {quote content value rest} : Quote quote → Decodes quote content value →
      (∀ b ∈ rest.head?, b = Byte.newline) →
      Fault (quote :: (content ++ rest)) ⟨.unterminatedString, 0, 1⟩
  | escape {quote content value rest} : Quote quote → Decodes quote content value →
      (∀ e ∈ rest.head?, escapes.lookup e = none) →
      Fault (quote :: (content ++ Byte.backslash :: rest))
        ⟨.unknownEscape (rest.headD 0), content.length + 1, 2⟩

/-! ## Longest words -/

theorem Longest.eq {words : Text → Prop} {word rest word' rest' : Text}
    (h : Longest words word rest) (h' : Longest words word' rest')
    (htext : word ++ rest = word' ++ rest') : word = word' := by
  have hle := h.length_le word' h'.mem (htext ▸ List.prefix_append word' rest')
  have hge := h'.length_le word h.mem (htext ▸ List.prefix_append word rest)
  exact List.append_inj_left htext (Nat.le_antisymm hge hle)

theorem Longest.cut {words : Text → Prop} {word rest rest' : Text} (h : Longest words word rest)
    (hrest : rest' <+: rest) : Longest words word rest' :=
  ⟨h.mem, fun other hother hbegins =>
    h.length_le other hother (hbegins.trans ((List.prefix_append_right_inj word).mpr hrest))⟩

/-! ## Strings -/

section

variable {quote : UInt8} (hquote : Quote quote)
include hquote

theorem quoted_open {content value rest : Text} (h : Decodes quote content value)
    (hrest : ∀ b ∈ rest.head?, b = Byte.newline) (n : Nat) :
    quoted quote n (content ++ rest) = .error ⟨.unterminatedString, 0, 1⟩ := by
  rw [quoted_of_decodes hquote h, quoted.eq_def]
  cases rest with
  | nil => rfl
  | cons b rest =>
    obtain rfl := hrest b rfl
    have hne : Byte.newline ≠ quote := by rcases hquote with rfl | rfl <;> decide
    simp [hne, Except.map]

theorem quoted_unknown {content value rest : Text} (h : Decodes quote content value)
    (hrest : ∀ e ∈ rest.head?, escapes.lookup e = none) (n : Nat) :
    quoted quote n (content ++ Byte.backslash :: rest) =
      .error ⟨.unknownEscape (rest.headD 0), n + content.length, 2⟩ := by
  rw [quoted_of_decodes hquote h, quoted.eq_def]
  simp only [if_neg (quote_ne_backslash hquote), if_neg (by decide : Byte.backslash ≠ Byte.newline),
    if_true]
  cases rest with
  | nil => rfl
  | cons e rest =>
    simp only [hrest e rfl]
    rfl

end

/-- Where the content of a string comes to an end. -/
inductive Stuck (quote : UInt8) : Text → Prop
  | closed {rest} : Stuck quote (quote :: rest)
  | broken {rest} : (∀ b ∈ rest.head?, b = Byte.newline) → Stuck quote rest
  | unknown {rest} : (∀ e ∈ rest.head?, escapes.lookup e = none) →
      Stuck quote (Byte.backslash :: rest)

theorem exists_decodes (quote : UInt8) : ∀ text : Text, ∃ content value rest,
    text = content ++ rest ∧ Decodes quote content value ∧ Stuck quote rest
  | [] => ⟨[], [], [], rfl, .nil, .broken (by simp)⟩
  | b :: rest => by
    by_cases hquote : b = quote
    · exact ⟨[], [], b :: rest, rfl, .nil, hquote ▸ .closed⟩
    by_cases hnewline : b = Byte.newline
    · exact ⟨[], [], b :: rest, rfl, .nil, .broken (by simpa using hnewline)⟩
    by_cases hbackslash : b = Byte.backslash
    · subst hbackslash
      cases rest with
      | nil => exact ⟨[], [], _, rfl, .nil, .unknown (by simp)⟩
      | cons e rest =>
        cases hlookup : escapes.lookup e with
        | none => exact ⟨[], [], _, rfl, .nil, .unknown (by simpa using hlookup)⟩
        | some c =>
          obtain ⟨content, value, rest', hrest, hdecodes, hstuck⟩ := exists_decodes quote rest
          exact ⟨_, _, rest', by rw [hrest]; rfl, .escape hlookup hdecodes, hstuck⟩
    · obtain ⟨content, value, rest', hrest, hdecodes, hstuck⟩ := exists_decodes quote rest
      exact ⟨_, _, rest', by rw [hrest]; rfl, .plain hquote hnewline hbackslash hdecodes, hstuck⟩

/-! ## Comments -/

theorem commentEnd_of_body {body : Text} (h : ¬ commentClose <:+: body) (n : Nat) (rest : Text) :
    commentEnd n (body ++ (commentClose ++ rest)) = some (n + body.length + 2) := by
  induction body generalizing n with
  | nil => exact if_pos ⟨rfl, rfl⟩
  | cons b body ih =>
    have hbody : ¬ commentClose <:+: body := fun hinfix => h (List.infix_cons hinfix)
    have hclose : ¬ (b = Byte.star ∧
        (body ++ (commentClose ++ rest)).head? = some Byte.slash) := by
      rintro ⟨rfl, hhead⟩
      cases body with
      | nil => cases hhead
      | cons c body =>
        obtain rfl := Option.some.inj hhead
        exact h (List.prefix_append commentClose body).isInfix
    rw [List.cons_append, commentEnd, if_neg hclose, ih hbody, List.length_cons]
    congr 1
    omega

theorem commentEnd_of_open {text : Text} (h : ¬ commentClose <:+: text) (n : Nat) :
    commentEnd n text = none := by
  induction text generalizing n with
  | nil => rfl
  | cons b text ih =>
    have htext : ¬ commentClose <:+: text := fun hinfix => h (List.infix_cons hinfix)
    have hclose : ¬ (b = Byte.star ∧ text.head? = some Byte.slash) := by
      rintro ⟨rfl, hhead⟩
      obtain ⟨rest, rfl⟩ := List.head?_eq_some_iff.mp hhead
      exact h (List.prefix_append commentClose rest).isInfix
    rw [commentEnd, if_neg hclose, ih htext]

/-- A comment that is closed is closed for the first time somewhere. -/
theorem exists_body {text : Text} (h : commentClose <:+: text) :
    ∃ body rest, text = body ++ (commentClose ++ rest) ∧ ¬ commentClose <:+: body := by
  induction text with
  | nil => simp [commentClose] at h
  | cons b text ih =>
    by_cases hbegins : commentClose <+: b :: text
    · obtain ⟨rest, hrest⟩ := hbegins
      exact ⟨[], rest, hrest.symm, by simp [commentClose]⟩
    · obtain ⟨body, rest, rfl, hbody⟩ := ih ((List.infix_cons_iff.mp h).resolve_left hbegins)
      refine ⟨b :: body, rest, rfl, fun hinfix => ?_⟩
      rcases List.infix_cons_iff.mp hinfix with hshort | hinfix
      · exact hbegins (hshort.trans (List.prefix_append (b :: body) _))
      · exact hbody hinfix

/-! ## Names -/

theorem nameSpelling_longest {b : UInt8} {rest : Text} (h : startsName b rest = true) :
    Longest Name (nameSpelling b rest) (rest.dropWhile Byte.isNamePart) := by
  refine ⟨⟨b, _, rfl, startsName_takeWhile h, fun _ => List.mem_takeWhile_imp⟩, ?_⟩
  rintro _ ⟨c, other, rfl, -, hother⟩ hbegins
  rw [nameSpelling, List.cons_append, List.takeWhile_append_dropWhile] at hbegins
  obtain ⟨-, rest', rfl⟩ := List.cons_prefix_cons.mp hbegins
  rw [nameSpelling, List.takeWhile_append_of_pos hother]
  simp

/-! ## Numbers -/

theorem append_isPrefix {a c text : Text} (ha : a <+: text) (hc : c <+: text.drop a.length) :
    a ++ c <+: text := by
  obtain ⟨rest, rfl⟩ := ha
  rw [List.drop_left] at hc
  exact (List.prefix_append_right_inj a).mpr hc

theorem fractionPart_isPrefix (text : Text) : fractionPart text <+: text := by
  unfold fractionPart
  split
  · dsimp only
    split
    · exact List.nil_prefix
    · exact List.cons_prefix_cons.mpr ⟨rfl, List.takeWhile_prefix _⟩
  · exact List.nil_prefix

theorem signPart_isPrefix (text : Text) : signPart text <+: text := by
  unfold signPart
  split
  · split
    · exact List.cons_prefix_cons.mpr ⟨rfl, List.nil_prefix⟩
    · exact List.nil_prefix
  · exact List.nil_prefix

theorem exponentPart_isPrefix (text : Text) : exponentPart text <+: text := by
  unfold exponentPart
  split
  · exact List.nil_prefix
  · dsimp only
    split
    · exact List.cons_prefix_cons.mpr
        ⟨rfl, append_isPrefix (signPart_isPrefix _) (List.takeWhile_prefix _)⟩
    · exact List.nil_prefix

theorem numberSpelling_isPrefix (text : Text) : numberSpelling text <+: text := by
  refine append_isPrefix (append_isPrefix (List.takeWhile_prefix _) (fractionPart_isPrefix _)) ?_
  rw [List.length_append]
  exact exponentPart_isPrefix _

theorem exponent_length_le {exponent : Text} (h : Exponent exponent) (rest : Text) :
    exponent.length ≤ (exponentPart (exponent ++ rest)).length := by
  cases h with
  | none => exact Nat.zero_le _
  | @some mark sign ds hmark hsign hds =>
    have hdigits : (ds ++ rest).takeWhile Byte.isDigit = ds ++ rest.takeWhile Byte.isDigit :=
      List.takeWhile_append_of_pos hds.2
    simp only [List.cons_append, List.append_assoc, exponentPart, signPart_append hsign hds,
      List.drop_left, hdigits]
    rw [if_pos ⟨hmark, by simp [hds.1]⟩]
    simp

theorem fraction_length_le {part : Text} (h : Fraction part) (rest : Text) :
    part.length ≤ (fractionPart (part ++ rest)).length := by
  cases h with
  | none => exact Nat.zero_le _
  | some hds =>
    rw [List.cons_append, fractionPart_dot, List.takeWhile_append_of_pos hds.2,
      if_neg (by simp [hds.1])]
    simp

/-- Every stage of a numeral is read as far as it goes, unless the stages after it are empty. -/
theorem numeral_length_le {numeral : Text} (h : Numeral numeral) (rest : Text) :
    numeral.length ≤ (numberSpelling (numeral ++ rest)).length := by
  obtain ⟨hwhole, hpart, hexponent⟩ := h
  rename_i whole part exponent
  have hwhole' : (whole ++ (part ++ (exponent ++ rest))).takeWhile Byte.isDigit =
      whole ++ (part ++ (exponent ++ rest)).takeWhile Byte.isDigit :=
    List.takeWhile_append_of_pos hwhole.2
  -- With nothing behind the whole part, more digits only make longer what is read.
  by_cases hne : part ++ exponent = []
  · obtain ⟨rfl, rfl⟩ := List.append_eq_nil_iff.mp hne
    simp only [List.append_nil, List.nil_append, numberSpelling, List.length_append] at hwhole' ⊢
    rw [hwhole', List.length_append]
    omega
  have hdigit : ∀ b ∈ (part ++ (exponent ++ rest)).head?, Byte.isDigit b = false := by
    cases hpart with
    | none => exact (exponent_plain hexponent hne rest).1
    | some _ => simp; decide
  have hwhole' : (whole ++ (part ++ (exponent ++ rest))).takeWhile Byte.isDigit = whole :=
    takeWhile_run hwhole.2 hdigit
  simp only [List.append_assoc, numberSpelling, hwhole', List.length_append, List.drop_left]
  by_cases hne' : exponent = []
  · subst hne'
    have hle := fraction_length_le hpart rest
    rw [List.nil_append, List.length_nil]
    omega
  · obtain ⟨hdigit', hfraction⟩ := exponent_plain hexponent hne' rest
    have hdrop : (whole ++ (part ++ (exponent ++ rest))).drop (whole.length + part.length) =
        exponent ++ rest := by
      rw [← List.append_assoc, ← List.length_append, List.drop_left]
    have hle := exponent_length_le hexponent rest
    rw [fractionPart_append hpart hdigit' hfraction, hdrop]
    omega

theorem numberSpelling_longest {b : UInt8} (hb : Byte.isDigit b = true) (rest : Text) :
    ∃ rest', b :: rest = numberSpelling (b :: rest) ++ rest' ∧
      Longest Numeral (numberSpelling (b :: rest)) rest' := by
  obtain ⟨rest', hrest⟩ := numberSpelling_isPrefix (b :: rest)
  refine ⟨rest', hrest.symm, numberSpelling_numeral hb rest, fun other hother hbegins => ?_⟩
  obtain ⟨tail, htail⟩ := hbegins
  have hle := numeral_length_le hother tail
  rwa [htail, hrest] at hle

/-! ## Ends of lines -/

theorem Mark.newline_notMem {kind : Token.Kind} {word : Text} (h : Mark kind word) :
    Byte.newline ∉ word := by
  have hequals : Byte.newline ≠ Byte.equals := by decide
  cases h with
  | @pair b _ hb =>
    have hne : Byte.newline ≠ b := by
      rintro rfl
      cases hb
    simp [hne, hequals]
  | @single b _ hb =>
    have hne : Byte.newline ≠ b := by
      rintro rfl
      cases hb
    simpa using hne

theorem Name.newline_notMem {word : Text} (h : Name word) : Byte.newline ∉ word := by
  obtain ⟨b, rest, rfl, hb, hrest⟩ := h
  intro hmem
  rcases List.mem_cons.mp hmem with rfl | hmem
  · cases hb
  · cases hrest _ hmem

theorem Fronts.length_eq {lexeme : Lexeme} {word rest : Text} (h : Fronts lexeme word rest) :
    lexeme.length = word.length := by
  cases lexeme with
  | gap n => exact h.1
  | token kind value n => exact h.1

/-- What is read does not depend on how much text follows. -/
theorem Fronts.cut {lexeme : Lexeme} {word rest rest' : Text} (h : Fronts lexeme word rest)
    (hrest : rest' <+: rest) : Fronts lexeme word rest' := by
  cases lexeme with
  | gap n =>
    refine ⟨h.1, ?_⟩
    cases h.2 with
    | blank hb => exact .blank hb
    | line hopening hbody hend =>
      refine .line hopening hbody fun b hb => hend b ?_
      obtain ⟨tail, rfl⟩ := hrest
      rw [List.head?_append, Option.mem_def.mp hb]
      rfl
    | block hbody => exact .block hbody
  | token kind value n =>
    refine ⟨h.1, ?_⟩
    have htext : word ++ rest' <+: word ++ rest := (List.prefix_append_right_inj word).mpr hrest
    cases h.2 with
    | mark hmark hlongest hcomment =>
      refine .mark hmark (hlongest.cut hrest) fun hopens => hcomment ?_
      exact hopens.imp (·.trans htext) (·.trans htext)
    | string hquote hdecodes => exact .string hquote hdecodes
    | number hlongest => exact .number (hlongest.cut hrest)
    | name hlongest => exact .name (hlongest.cut hrest)

/-! ### What the scanner makes of a piece -/

theorem next_of_gap {word rest : Text} (h : Gap word rest) :
    ∃ b w, word = b :: w ∧ next b (w ++ rest) = .ok (.gap word.length) := by
  cases h with
  | @blank b rest hb => exact ⟨b, [], rfl, if_pos hb⟩
  | @line opening body rest hopening hbody hend =>
    have hrun : (body ++ rest).takeWhile (· != Byte.newline) = body := by
      apply takeWhile_run
      · intro b hb
        simpa using ne_of_mem_of_not_mem hb hbody
      · intro b hb
        simpa using hend b hb
    rcases hopening with rfl | rfl
    · refine ⟨Byte.hash, body, rfl, ?_⟩
      rw [next, if_neg (by decide), if_pos (.inl rfl), hrun, List.length_append]
      rfl
    · refine ⟨Byte.slash, Byte.slash :: body, rfl, ?_⟩
      rw [next, if_neg (by decide), if_pos (.inr ⟨rfl, rfl⟩), List.cons_append,
        List.takeWhile_cons_of_pos (by decide), hrun, List.length_append]
      congr 2
      simp only [List.length_cons, List.length_nil]
      omega
  | @block body rest hbody =>
    refine ⟨Byte.slash, Byte.star :: (body ++ commentClose), rfl, ?_⟩
    have hend := commentEnd_of_body hbody 2 rest
    rw [next, if_neg (by decide), if_neg (by simp; decide), if_pos ⟨rfl, rfl⟩, List.cons_append,
      List.drop_one, List.tail_cons, List.append_assoc, hend]
    simp only [List.length_cons, List.length_append, commentClose, List.length_nil]
    congr 2
    omega

theorem pair_isPrefix {b c : UInt8} {rest : Text} (h : rest.head? = some c) :
    [b, c] <+: b :: rest := by
  obtain ⟨tail, rfl⟩ := List.head?_eq_some_iff.mp h
  exact List.prefix_append [b, c] tail

theorem next_of_reading {kind : Token.Kind} {value word rest : Text}
    (h : Reading kind value word rest) :
    ∃ b w, word = b :: w ∧ next b (w ++ rest) = .ok (.token kind value word.length) := by
  cases h with
  | mark hmark hlongest hcomment =>
    cases hmark with
    | @pair b kind hb => exact ⟨b, [Byte.equals], rfl, next_pair hb rest⟩
    | @single b kind hb =>
      refine ⟨b, [], rfl, next_single hb ?_ ?_⟩
      · rintro rfl
        exact ⟨fun hhead => hcomment (.inl (pair_isPrefix hhead)),
          fun hhead => hcomment (.inr (pair_isPrefix hhead))⟩
      · cases hpair : pairOperator? b with
        | none => exact .inl rfl
        | some kind' =>
          refine .inr fun h => ?_
          exact absurd (hlongest.length_le _ ⟨kind', .pair hpair⟩ (pair_isPrefix h)) (by simp)
  | @string quote content value rest hquote hdecodes =>
    refine ⟨quote, content ++ [quote], rfl, ?_⟩
    rw [next_quote hquote, List.append_assoc, List.singleton_append,
      quoted_closed hquote hdecodes]
    simp only [Except.map, List.length_cons, List.length_append, List.length_nil]
    congr 2
    omega
  | number hlongest =>
    obtain ⟨b, w, rfl⟩ := List.exists_cons_of_ne_nil hlongest.mem.ne_nil
    have hb := isDigit_of_numeral hlongest.mem
    obtain ⟨rest', hrest, hlongest'⟩ := numberSpelling_longest hb (w ++ rest)
    refine ⟨b, w, rfl, ?_⟩
    rw [next_word (word_of_isDigit b hb), if_pos hb, ← hlongest.eq hlongest' hrest]
    rfl
  | name hlongest =>
    obtain ⟨b, w, rfl, hstart, -⟩ := hlongest.mem
    obtain ⟨hword, hdigit⟩ := word_of_startsName hstart
    have hstart' := startsName_append hstart rest
    have hrest : b :: w ++ rest =
        nameSpelling b (w ++ rest) ++ (w ++ rest).dropWhile Byte.isNamePart := by
      rw [nameSpelling, List.cons_append, List.cons_append, List.takeWhile_append_dropWhile]
    refine ⟨b, w, rfl, ?_⟩
    rw [next_word hword, hdigit, if_neg (by simp), if_pos hstart',
      ← hlongest.eq (nameSpelling_longest hstart') hrest]
    rfl

theorem next_of_fronts {lexeme : Lexeme} {word rest : Text} (h : Fronts lexeme word rest) :
    ∃ b w, word = b :: w ∧ next b (w ++ rest) = .ok lexeme := by
  cases lexeme with
  | gap n =>
    obtain ⟨rfl, hgap⟩ := h
    exact next_of_gap hgap
  | token kind value n =>
    obtain ⟨rfl, hreading⟩ := h
    exact next_of_reading hreading

/-- Nothing begins with a byte of no class. A bang needs an equals sign behind it, and a tilde a
letter or an underscore. -/
theorem no_opening_iff {b : UInt8} {rest : Text} :
    (∀ word, Opening word → ¬ word <+: b :: rest) ↔
      Byte.isBlank b = false ∧ b ≠ Byte.hash ∧
        (pairOperator? b = none ∨ rest.head? ≠ some Byte.equals) ∧ punctuation? b = none ∧
        ¬ Quote b ∧ Byte.isDigit b = false ∧ startsName b rest = false := by
  have hsingle : [b] <+: b :: rest := List.prefix_append [b] rest
  constructor
  · intro h
    refine ⟨?_, ?_, ?_, ?_, fun hb => h _ (.quote hb) hsingle, ?_, ?_⟩
    · exact Bool.eq_false_iff.mpr fun hb => h _ (.blank hb) hsingle
    · exact fun hb => h _ .comment (hb ▸ hsingle)
    · cases hb : pairOperator? b with
      | none => exact .inl rfl
      | some kind => exact .inr fun hhead => h _ (.mark (.pair hb)) (pair_isPrefix hhead)
    · exact Option.eq_none_iff_forall_ne_some.mpr fun kind hb => h _ (.mark (.single hb)) hsingle
    · exact Bool.eq_false_iff.mpr fun hb => h _ (.digit hb) hsingle
    · refine Bool.eq_false_iff.mpr fun hb => h _ (.name (nameSpelling_longest hb).mem) ?_
      exact List.cons_prefix_cons.mpr ⟨rfl, List.takeWhile_prefix _⟩
  · rintro ⟨hblank, hhash, hpair, hpunctuation, hquote, hdigit, hname⟩ word hopening hbegins
    cases hopening with
    | blank hb =>
      obtain ⟨rfl, -⟩ := List.cons_prefix_cons.mp hbegins
      rw [hb] at hblank
      cases hblank
    | comment => exact hhash (List.cons_prefix_cons.mp hbegins).1.symm
    | mark hmark =>
      cases hmark with
      | pair hb =>
        obtain ⟨rfl, tail, rfl⟩ := List.cons_prefix_cons.mp hbegins
        rcases hpair with hpair | hpair
        · rw [hb] at hpair
          cases hpair
        · exact hpair rfl
      | single hb =>
        obtain ⟨rfl, -⟩ := List.cons_prefix_cons.mp hbegins
        rw [hb] at hpunctuation
        cases hpunctuation
    | quote hb => exact hquote ((List.cons_prefix_cons.mp hbegins).1 ▸ hb)
    | digit hb =>
      obtain ⟨rfl, -⟩ := List.cons_prefix_cons.mp hbegins
      rw [hb] at hdigit
      cases hdigit
    | name hb =>
      obtain ⟨c, w, rfl, hstart, -⟩ := hb
      obtain ⟨rfl, tail, rfl⟩ := List.cons_prefix_cons.mp hbegins
      rw [startsName_append hstart tail] at hname
      cases hname

theorem next_of_fault {text : Text} {m : Misread} (h : Fault text m) :
    ∃ b rest, text = b :: rest ∧ next b rest = .error m := by
  cases h with
  | @byte b rest hnone =>
    obtain ⟨hblank, hhash, hpair, hpunctuation, hquote, hdigit, hname⟩ := no_opening_iff.mp hnone
    have hslash : b ≠ Byte.slash := by
      rintro rfl
      exact absurd hpunctuation (by decide)
    refine ⟨b, rest, rfl, ?_⟩
    rw [next, hblank, if_neg (by simp), if_neg (by simp [hhash, hslash]),
      if_neg (by simp [hslash]), no_pair hpair]
    simp only [hpunctuation, hdigit, hname]
    exact if_neg hquote
  | @comment rest hopen =>
    refine ⟨Byte.slash, Byte.star :: rest, rfl, ?_⟩
    rw [next, if_neg (by decide), if_neg (by simp; decide), if_pos ⟨rfl, rfl⟩, List.drop_one,
      List.tail_cons, commentEnd_of_open hopen]
  | @string quote content value rest hquote hdecodes hend =>
    refine ⟨quote, content ++ rest, rfl, ?_⟩
    rw [next_quote hquote, quoted_open hquote hdecodes hend]
    rfl
  | @escape quote content value rest hquote hdecodes hunknown =>
    refine ⟨quote, content ++ Byte.backslash :: rest, rfl, ?_⟩
    rw [next_quote hquote, quoted_unknown hquote hdecodes hunknown, Nat.add_comm 1]
    rfl

/-! ### Nothing else begins a text -/

/-- A text has a piece at its front. -/
def Begins (text : Text) : Prop :=
  ∃ lexeme word rest, text = word ++ rest ∧ Fronts lexeme word rest

theorem begins_line {opening : Text}
    (hopening : opening = [Byte.hash] ∨ opening = [Byte.slash, Byte.slash]) (text : Text) :
    Begins (opening ++ text) := by
  refine ⟨.gap _, opening ++ text.takeWhile (· != Byte.newline),
    text.dropWhile (· != Byte.newline), ?_, rfl, .line hopening ?_ ?_⟩
  · rw [List.append_assoc, List.takeWhile_append_dropWhile]
  · intro hmem
    simpa using List.mem_takeWhile_imp hmem
  · intro b hb
    have hstop := List.head?_dropWhile_not (· != Byte.newline) text
    rw [Option.mem_def.mp hb] at hstop
    simpa using hstop

theorem begins_block (text : Text) (h : commentClose <:+: text) :
    Begins (Byte.slash :: Byte.star :: text) := by
  obtain ⟨body, rest, rfl, hbody⟩ := exists_body h
  refine ⟨.gap _, Byte.slash :: Byte.star :: (body ++ commentClose), rest, ?_, rfl, .block hbody⟩
  simp

theorem begins_pair {b : UInt8} {kind : Token.Kind} (hb : pairOperator? b = some kind)
    (rest : Text) : Begins (b :: Byte.equals :: rest) := by
  refine ⟨spelled kind [b, Byte.equals], [b, Byte.equals], rest, rfl, rfl,
    .mark (.pair hb) ⟨⟨kind, .pair hb⟩, ?_⟩ ?_⟩
  · rintro other ⟨_, hother⟩ -
    cases hother <;> simp
  · obtain ⟨-, -, hslash⟩ := pair_plain b (by simp [hb])
    rintro (hbegins | hbegins) <;> exact hslash (List.cons_prefix_cons.mp hbegins).1.symm

theorem begins_single {b : UInt8} {kind : Token.Kind} (hb : punctuation? b = some kind)
    {rest : Text} (hpair : pairOperator? b = none ∨ rest.head? ≠ some Byte.equals)
    (hcomment : ¬ OpensComment (b :: rest)) : Begins (b :: rest) := by
  refine ⟨spelled kind [b], [b], rest, rfl, rfl, .mark (.single hb) ⟨⟨kind, .single hb⟩, ?_⟩
    hcomment⟩
  rintro other ⟨_, hother⟩ hbegins
  cases hother with
  | pair hb' =>
    obtain ⟨rfl, tail, rfl⟩ := List.cons_prefix_cons.mp hbegins
    rcases hpair with hpair | hpair
    · rw [hb'] at hpair
      cases hpair
    · exact absurd rfl hpair
  | single _ => rfl

theorem begins_or_fault_quote {quote : UInt8} (hquote : Quote quote) (rest : Text) :
    Begins (quote :: rest) ∨ ∃ m, Fault (quote :: rest) m := by
  obtain ⟨content, value, rest', rfl, hdecodes, hstuck⟩ := exists_decodes quote rest
  cases hstuck with
  | @closed tail =>
    refine .inl ⟨.token .string value _, quote :: (content ++ [quote]), tail, ?_, rfl,
      .string hquote hdecodes⟩
    simp
  | broken hend => exact .inr ⟨_, .string hquote hdecodes hend⟩
  | unknown hunknown => exact .inr ⟨_, .escape hquote hdecodes hunknown⟩

/-- Every text begins with a piece or a fault. -/
theorem begins_or_fault (b : UInt8) (rest : Text) :
    Begins (b :: rest) ∨ ∃ m, Fault (b :: rest) m := by
  by_cases hblank : Byte.isBlank b = true
  · exact .inl ⟨.gap 1, [b], rest, rfl, rfl, .blank hblank⟩
  by_cases hhash : b = Byte.hash
  · exact .inl (hhash ▸ begins_line (.inl rfl) rest)
  -- Comments come before marks, since a slash may begin either.
  by_cases hcomment : OpensComment (b :: rest)
  · rcases hcomment with ⟨text, htext⟩ | ⟨text, htext⟩
    · exact .inl (htext ▸ begins_line (.inr rfl) text)
    · rw [← htext]
      by_cases hclose : commentClose <:+: text
      · exact .inl (begins_block text hclose)
      · exact .inr ⟨_, .comment hclose⟩
  by_cases hpair : pairOperator? b = none ∨ rest.head? ≠ some Byte.equals
  · cases hsingle : punctuation? b with
    | some kind => exact .inl (begins_single hsingle hpair hcomment)
    | none =>
      by_cases hquote : Quote b
      · exact begins_or_fault_quote hquote rest
      by_cases hdigit : Byte.isDigit b = true
      · obtain ⟨rest', hrest, hlongest⟩ := numberSpelling_longest hdigit rest
        exact .inl ⟨.token .number _ _, _, rest', hrest, rfl, .number hlongest⟩
      by_cases hname : startsName b rest = true
      · refine .inl ⟨.token _ _ _, nameSpelling b rest, rest.dropWhile Byte.isNamePart, ?_, rfl,
          .name (nameSpelling_longest hname)⟩
        rw [nameSpelling, List.cons_append, List.takeWhile_append_dropWhile]
      · refine .inr ⟨_, .byte (no_opening_iff.mpr ?_)⟩
        simp only [Bool.not_eq_true] at hblank hdigit hname
        exact ⟨hblank, hhash, hpair, hsingle, hquote, hdigit, hname⟩
  · obtain ⟨hkind, hhead⟩ := not_or.mp hpair
    obtain ⟨kind, hkind⟩ := Option.ne_none_iff_exists'.mp hkind
    obtain ⟨tail, rfl⟩ := List.head?_eq_some_iff.mp (not_not.mp hhead)
    exact .inl (begins_pair hkind tail)

theorem next_eq_ok_iff {b : UInt8} {rest : Text} {lexeme : Lexeme} :
    next b rest = .ok lexeme ↔
      ∃ word rest', b :: rest = word ++ rest' ∧ Fronts lexeme word rest' := by
  constructor
  · intro h
    rcases begins_or_fault b rest with ⟨lexeme', word, rest', htext, hfronts⟩ | ⟨m, hfault⟩
    · obtain ⟨c, w, rfl, hnext⟩ := next_of_fronts hfronts
      obtain ⟨rfl, rfl⟩ := List.cons.inj htext
      obtain rfl := Except.ok.inj (h.symm.trans hnext)
      exact ⟨_, rest', htext, hfronts⟩
    · obtain ⟨c, w, htext, hnext⟩ := next_of_fault hfault
      obtain ⟨rfl, rfl⟩ := List.cons.inj htext
      cases h.symm.trans hnext
  · rintro ⟨word, rest', htext, hfronts⟩
    obtain ⟨c, w, rfl, hnext⟩ := next_of_fronts hfronts
    obtain ⟨rfl, rfl⟩ := List.cons.inj htext
    exact hnext

theorem next_eq_error_iff {b : UInt8} {rest : Text} {m : Misread} :
    next b rest = .error m ↔ Fault (b :: rest) m := by
  constructor
  · intro h
    rcases begins_or_fault b rest with ⟨lexeme, word, rest', htext, hfronts⟩ | ⟨m', hfault⟩
    · cases h.symm.trans (next_eq_ok_iff.mpr ⟨word, rest', htext, hfronts⟩)
    · obtain ⟨c, w, htext, hnext⟩ := next_of_fault hfault
      obtain ⟨rfl, rfl⟩ := List.cons.inj htext
      obtain rfl := Except.error.inj (h.symm.trans hnext)
      exact hfault
  · intro h
    obtain ⟨c, w, htext, hnext⟩ := next_of_fault h
    obtain ⟨rfl, rfl⟩ := List.cons.inj htext
    exact hnext

theorem Fronts.ne_nil {lexeme : Lexeme} {word rest : Text} (h : Fronts lexeme word rest) :
    word ≠ [] := by
  obtain ⟨b, w, rfl, -⟩ := next_of_fronts h
  exact List.cons_ne_nil b w

/-- A text is empty, has a piece in front of a shorter text, or is at fault. -/
theorem piece_induction {motive : Text → Prop} (nil : motive [])
    (piece : ∀ {lexeme word rest}, Fronts lexeme word rest → motive rest → motive (word ++ rest))
    (fault : ∀ {text m}, Fault text m → motive text) (text : Text) : motive text := by
  induction hn : text.length using Nat.strong_induction_on generalizing text with
  | _ n ih =>
    subst hn
    cases text with
    | nil => exact nil
    | cons b text =>
      rcases begins_or_fault b text with ⟨lexeme, word, rest, htext, hfronts⟩ | ⟨m, hfault⟩
      · rw [htext] at ih ⊢
        have hpos := List.length_pos_iff.mpr hfronts.ne_nil
        exact piece hfronts (ih rest.length (by rw [List.length_append]; omega) rest rfl)
      · exact fault hfault

end Lexeme

end Script
