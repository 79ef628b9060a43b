import Script.Proofs.Lexeme
import Mathlib.Data.List.Induction

/-!
# How a text is cut into tokens

The scanner cuts a text into pieces from left to right. It succeeds exactly if the spans of the
tokens tile the text together with blanks, comments and the mark at its start
(`tokens_tile_source`). It fails exactly where a piece would have to begin and a fault does
(`scan_eq_error_iff`). What it finds in a text it finds there too when further lines follow
(`Token.scanFrom_spells`).
-/

namespace Script

/-! ## Positions -/

/-- The position of a byte in a text: the newlines before it, and the bytes since the last one. -/
def Position.ofOffset (text : Text) (o : Nat) : Position where
  line := 1 + (text.take o).count Byte.newline
  col := 1 + ((text.take o).reverse.takeWhile (· != Byte.newline)).length

namespace Position

theorem advance_eq (w : Text) :
    advance {} w =
      ⟨1 + w.count Byte.newline, 1 + (w.reverse.takeWhile (· != Byte.newline)).length⟩ := by
  induction w using List.reverseRecOn with
  | nil => rfl
  | append_singleton w b ih =>
    rw [advance_append, ih, List.reverse_append, List.reverse_singleton, List.singleton_append,
      List.count_append]
    by_cases hb : b = Byte.newline
    · subst hb
      simp [advance, step, Nat.add_assoc]
    · simp [advance, step, hb, Nat.add_comm]

theorem ofOffset_eq (text : Text) (o : Nat) : ofOffset text o = advance {} (text.take o) :=
  (advance_eq (text.take o)).symm

theorem advance_take (text : Text) (o n : Nat) :
    (ofOffset text o).advance ((text.drop o).take n) = ofOffset text (o + n) := by
  rw [ofOffset_eq, ofOffset_eq, List.take_add, advance_append]

theorem advance_word {text word rest : Text} {o : Nat} (h : text.drop o = word ++ rest) :
    (ofOffset text o).advance word = ofOffset text (o + word.length) := by
  rw [← advance_take, h, List.take_left]

end Position

/-! ## Single pieces -/

theorem length_left {text word rest : Text} {o : Nat} (h : text.drop o = word ++ rest) :
    text.length - o = word.length + rest.length := by
  rw [← List.length_drop, h, List.length_append]

/-- What is left after a piece. -/
theorem drop_word {text word rest : Text} {o : Nat} (h : text.drop o = word ++ rest) :
    text.drop (o + word.length) = rest := by
  rw [← List.drop_drop, h, List.drop_left]

namespace Token

/-- The token of a piece at a position, if it is one. -/
def ofLexeme (file : Text) (source : Option Source) (p : Position) : Lexeme → List Token
  | .gap _ => []
  | .token kind value n => [⟨kind, value, locate file source p n⟩]

section

variable (file : Text) (source : Option Source) (p : Position)

theorem scanFrom_piece {lexeme : Lexeme} {word rest : Text} (h : lexeme.Fronts word rest) :
    scanFrom file source p 0 (word ++ rest) =
      (scanFrom file source (p.advance word) 0 rest).map (ofLexeme file source p lexeme ++ ·) := by
  have hlength := h.length_eq
  obtain ⟨b, w, rfl, hnext⟩ := Lexeme.next_of_fronts h
  have hpending := scanFrom_pending file source (p.step b) w rest
  rw [List.cons_append, scanFrom, hnext]
  cases lexeme with
  | gap n =>
    obtain rfl : n = w.length + 1 := hlength
    exact hpending.trans (congrFun Except.map_id _).symm
  | token kind value n =>
    obtain rfl : n = w.length + 1 := hlength
    exact congrArg (Except.map _) hpending

theorem scanFrom_fault {text : Text} {m : Misread} (h : Lexeme.Fault text m) :
    scanFrom file source p 0 text =
      .error ⟨m.complaint, locate file source (p.advance (text.take m.offset)) m.length⟩ := by
  obtain ⟨b, rest, rfl, hnext⟩ := Lexeme.next_of_fault h
  rw [scanFrom, hnext]

end

/-- Where the first piece of a text begins: behind the mark at its start, if there is one. -/
def bodyStart (text : Text) : Nat :=
  if byteOrderMark.isPrefixOf text then 3 else 0

theorem bodyStart_le (text : Text) : bodyStart text ≤ text.length := by
  unfold bodyStart
  split
  next h => exact (List.isPrefixOf_iff_prefix.mp h).length_le
  next => exact Nat.zero_le _

theorem scan_eq (file : Text) (source : Option Source) (text : Text) :
    scan file source text =
      scanFrom (shownFile file) source (Position.ofOffset text (bodyStart text)) 0
        (text.drop (bodyStart text)) := by
  have hpending := scanFrom_pending (shownFile file) source {} (text.take (bodyStart text))
    (text.drop (bodyStart text))
  rwa [List.take_append_drop, List.length_take, Nat.min_eq_left (bodyStart_le text),
    ← Position.ofOffset_eq] at hpending

/-- No lexeme begins with the first byte of the mark for UTF-8. -/
theorem scanFrom_marked {file : Text} {source : Option Source} {p : Position}
    {text : Text} {tokens : List Token} (h : scanFrom file source p 0 text = .ok tokens) :
    byteOrderMark.isPrefixOf text = false := by
  cases text with
  | nil => rfl
  | cons b rest =>
    by_contra hmark
    obtain ⟨rfl, -⟩ : 239 = b ∧ _ := by
      simpa [byteOrderMark, List.isPrefixOf] using hmark
    have hnext : Lexeme.next 239 rest = .error ⟨.unexpectedByte 239, 0, 1⟩ :=
      Lexeme.next_word (by decide) rest
    simp only [scanFrom, hnext] at h
    cases h

/-- A whole text reads as the tokens it spells behind the mark at its start, and the end of the
input. -/
theorem Spells.scan_body {text : Text} {w : List Token}
    (h : Spells (text.drop (bodyStart text)) w []) (file : Text)
    (source : Option Source) :
    ∃ w' last, w'.map unplaced = w ∧ last.unplaced = ⟨.endOfInput, [], {}⟩ ∧
      scan file source text = .ok (w' ++ [last]) := by
  let p := Position.ofOffset text (bodyStart text)
  obtain ⟨w', hw', hscan⟩ := h (shownFile file) source p
  rw [List.append_nil] at hscan
  refine ⟨w', ⟨.endOfInput, [], locate (shownFile file) source
    (p.advance (text.drop (bodyStart text))) 0⟩, hw', rfl, ?_⟩
  rw [scan_eq]
  exact hscan

/-- A text that spells tokens has no mark at its start. -/
theorem Spells.scan {text : Text} {w : List Token} (h : Spells text w []) (file : Text)
    (source : Option Source) :
    ∃ w' last, w'.map unplaced = w ∧ last.unplaced = ⟨.endOfInput, [], {}⟩ ∧
      scan file source text = .ok (w' ++ [last]) := by
  obtain ⟨w', -, hscan⟩ := h [] none {}
  rw [List.append_nil] at hscan
  have hstart : bodyStart text = 0 := by simp [bodyStart, scanFrom_marked hscan]
  refine Spells.scan_body ?_ file source
  rwa [hstart, List.drop_zero]

end Token

/-! ## Tilings -/

/-- A token with the bytes it stands for. -/
structure Span where
  start : Nat
  word : Text
  token : Token

/-- The first byte behind a span. -/
def Span.stop (s : Span) : Nat :=
  s.start + s.word.length

/-- The token of a span can be read in a text where the span is, and is located there. -/
structure Span.StandsIn (file : Text) (source : Option Source) (text : Text) (s : Span) :
    Prop where
  location : s.token.location =
    Token.locate file source (Position.ofOffset text s.start) s.word.length
  reading : ∃ rest, text.drop s.start = s.word ++ rest ∧
    Lexeme.Reading s.token.kind s.token.value s.word rest
  kind : s.token.kind ≠ .endOfInput

/-- From byte `o` on, a text is a row of pieces: blanks, whole comments and the given spans. Each
piece begins where the one before it stops, and the last stops at the end of the text. -/
inductive Tiled (file : Text) (source : Option Source) (text : Text) : Nat → List Span → Prop
  | done : Tiled file source text text.length []
  | gap {o word rest spans} : text.drop o = word ++ rest → Lexeme.Gap word rest →
      Tiled file source text (o + word.length) spans → Tiled file source text o spans
  | span {s spans} : s.StandsIn file source text → Tiled file source text s.stop spans →
      Tiled file source text s.start (s :: spans)

theorem Lexeme.Reading.spelling {kind : Token.Kind} {value word rest : Text}
    (h : Reading kind value word rest) : Spelling kind value := by
  cases h with
  | mark hmark _ _ =>
    cases hmark with
    | pair hb => exact .pair hb
    | single hb => exact .punctuation hb
  | string _ _ => exact .string
  | number hlongest => exact .numeral hlongest.mem
  | name hlongest =>
    obtain ⟨b, w, rfl, hstart, hw⟩ := hlongest.mem
    exact .name hstart hw

namespace Span.StandsIn

variable {file : Text} {source : Option Source} {text : Text} {s : Span}

theorem bounds (h : s.StandsIn file source text) : s.start < s.stop ∧ s.stop ≤ text.length := by
  obtain ⟨rest, hdrop, hreading⟩ := h.reading
  have hlength := length_left hdrop
  have hfronts : Lexeme.Fronts (.token s.token.kind s.token.value s.word.length) s.word rest :=
    ⟨rfl, hreading⟩
  have hpos := List.length_pos_iff.mpr hfronts.ne_nil
  simp only [stop]
  omega

/-- A reading where a span is makes the span stand there. -/
theorem of_reading {o : Nat} {kind : Token.Kind} {value word rest : Text}
    (hdrop : text.drop o = word ++ rest) (hreading : Lexeme.Reading kind value word rest) :
    StandsIn file source text ⟨o, word, ⟨kind, value,
      Token.locate file source (Position.ofOffset text o) word.length⟩⟩ :=
  ⟨rfl, ⟨rest, hdrop, hreading⟩, hreading.spelling.kind_ne_endOfInput⟩

end Span.StandsIn

namespace Tiled

variable {file : Text} {source : Option Source} {text : Text} {o : Nat} {spans : List Span}

theorem stands (h : Tiled file source text o spans) : ∀ s ∈ spans, s.StandsIn file source text := by
  induction h with
  | done => simp
  | gap _ _ _ ih => exact ih
  | span hstands _ ih => exact List.forall_mem_cons.mpr ⟨hstands, ih⟩

theorem start_le (h : Tiled file source text o spans) : ∀ s ∈ spans, o ≤ s.start := by
  induction h with
  | done => simp
  | gap _ _ _ ih => exact fun s hs => Nat.le_of_add_right_le (ih s hs)
  | span hstands _ ih =>
    exact List.forall_mem_cons.mpr
      ⟨le_rfl, fun s hs => hstands.bounds.1.le.trans (ih s hs)⟩

theorem ordered (h : Tiled file source text o spans) :
    spans.Pairwise fun s s' => s.stop ≤ s'.start := by
  induction h with
  | done => exact .nil
  | gap _ _ _ ih => exact ih
  | span _ hrest ih => exact List.pairwise_cons.mpr ⟨hrest.start_le, ih⟩

end Tiled

/-- The token for the end of a text. -/
def Token.ending (file : Text) (source : Option Source) (text : Text) : Token :=
  ⟨.endOfInput, [], locate file source (Position.ofOffset text text.length) 0⟩

/-- One piece after the other is put in front of a tiling of what comes behind it. -/
theorem Tiled.of_scanFrom {file : Text} {source : Option Source} {text left : Text} {o : Nat}
    {tokens : List Token} (hleft : text.drop o = left) (ho : o ≤ text.length)
    (h : Token.scanFrom file source (Position.ofOffset text o) 0 left = .ok tokens) :
    ∃ spans, Tiled file source text o spans ∧
      tokens = spans.map Span.token ++ [Token.ending file source text] := by
  induction left using Lexeme.piece_induction generalizing o tokens with
  | nil =>
    obtain rfl : o = text.length := Nat.le_antisymm ho (List.drop_eq_nil_iff.mp hleft)
    cases h
    exact ⟨[], .done, rfl⟩
  | @piece lexeme word rest hfronts ih =>
    have hlength := length_left hleft
    rw [Token.scanFrom_piece _ _ _ hfronts, Position.advance_word hleft] at h
    cases hlater : Token.scanFrom file source (Position.ofOffset text (o + word.length)) 0 rest with
    | error e =>
      rw [hlater] at h
      cases h
    | ok later =>
      rw [hlater] at h
      cases h
      obtain ⟨spans, htiled, rfl⟩ := ih (drop_word hleft) (by omega) hlater
      cases lexeme with
      | gap n => exact ⟨spans, .gap hleft hfronts.2 htiled, rfl⟩
      | token kind value n =>
        obtain ⟨rfl, hreading⟩ := hfronts
        exact ⟨_, .span (.of_reading hleft hreading) htiled, rfl⟩
  | fault hfault =>
    rw [Token.scanFrom_fault _ _ _ hfault] at h
    cases h

/-- The scanner finds the pieces of a tiling. -/
theorem Tiled.scanFrom_eq {file : Text} {source : Option Source} {text : Text} {o : Nat}
    {spans : List Span} (h : Tiled file source text o spans) :
    Token.scanFrom file source (Position.ofOffset text o) 0 (text.drop o) =
      .ok (spans.map Span.token ++ [Token.ending file source text]) := by
  induction h with
  | done =>
    rw [List.drop_length]
    rfl
  | @gap o word rest spans hdrop hgap _ ih =>
    rw [drop_word hdrop] at ih
    have hfronts : Lexeme.Fronts (.gap word.length) word rest := ⟨rfl, hgap⟩
    rw [hdrop, Token.scanFrom_piece _ _ _ hfronts, Position.advance_word hdrop, ih]
    rfl
  | @span s spans hstands _ ih =>
    obtain ⟨hlocation, ⟨rest, hdrop, hreading⟩, -⟩ := hstands
    rw [Span.stop, drop_word hdrop] at ih
    have hfronts : Lexeme.Fronts (.token s.token.kind s.token.value s.word.length) s.word rest :=
      ⟨rfl, hreading⟩
    rw [hdrop, Token.scanFrom_piece _ _ _ hfronts, Position.advance_word hdrop, ih,
      Token.ofLexeme, ← hlocation]
    rfl

/-- All tokens of a text but the last are spelled like their kinds, and the last ends the input. -/
theorem Token.scan_spelling {file : Text} {source : Option Source} {text : Text}
    {tokens : List Token} (h : scan file source text = .ok tokens) :
    ∃ w last, tokens = w ++ [last] ∧ last.unplaced = ⟨.endOfInput, [], {}⟩ ∧
      ∀ t ∈ w, Lexeme.Spelling t.kind t.value := by
  rw [scan_eq] at h
  obtain ⟨spans, htiled, rfl⟩ := Tiled.of_scanFrom rfl (bodyStart_le text) h
  refine ⟨spans.map Span.token, _, rfl, rfl, fun t ht => ?_⟩
  obtain ⟨s, hs, rfl⟩ := List.mem_map.mp ht
  obtain ⟨rest, -, hreading⟩ := (htiled.stands s hs).reading
  exact hreading.spelling

/-- A text is read as tokens exactly if their spans tile it together with blanks and whole comments,
behind the mark at its start and up to the token for its end. The spans are not empty, lie inside
the text, and come one after the other. -/
theorem tokens_tile_source {file : Text} {source : Option Source} {text : Text}
    {tokens : List Token} :
    Token.scan file source text = .ok tokens ↔
      ∃ spans, Tiled (Token.shownFile file) source text (Token.bodyStart text) spans ∧
        tokens = spans.map Span.token ++ [Token.ending (Token.shownFile file) source text] ∧
        (∀ s ∈ spans, Token.bodyStart text ≤ s.start ∧ s.start < s.stop ∧ s.stop ≤ text.length) ∧
        spans.Pairwise fun s s' => s.stop ≤ s'.start := by
  rw [Token.scan_eq]
  constructor
  · intro h
    obtain ⟨spans, htiled, htokens⟩ := Tiled.of_scanFrom rfl (Token.bodyStart_le text) h
    exact ⟨spans, htiled, htokens,
      fun s hs => ⟨htiled.start_le s hs, (htiled.stands s hs).bounds⟩, htiled.ordered⟩
  · rintro ⟨spans, htiled, rfl, -⟩
    exact htiled.scanFrom_eq

-- What looks like the beginning of another comment inside of one hides no token.
example : Token.scan [] none (Token.byteOrderMark ++ "/*#*/x") =
    .ok [⟨.identifier, "x", ⟨"<input>", 1, 9, 1, none⟩⟩,
      ⟨.endOfInput, [], ⟨"<input>", 1, 10, 0, none⟩⟩] := by
  decide

/-! ## Faults -/

namespace Token

/-- A piece of a text begins at a byte: behind the mark at the start, or behind another piece. -/
inductive Starts (text : Text) : Nat → Prop
  | first : Starts text (bodyStart text)
  | next {o lexeme word rest} : Starts text o → text.drop o = word ++ rest →
      Lexeme.Fronts lexeme word rest → Starts text (o + word.length)

namespace Starts

variable {text : Text} {o : Nat}

theorem le_length (h : Starts text o) : o ≤ text.length := by
  cases h with
  | first => exact bodyStart_le text
  | @next o _ word rest _ hdrop hfronts =>
    have hlength := length_left hdrop
    have hpos := List.length_pos_iff.mpr hfronts.ne_nil
    omega

/-- The scanner comes to the beginning of every piece. -/
theorem scan (h : Starts text o) (file : Text) (source : Option Source) :
    ∃ tokens, scan file source text =
      (scanFrom (shownFile file) source (Position.ofOffset text o) 0 (text.drop o)).map
        (tokens ++ ·) := by
  induction h with
  | first =>
    refine ⟨[], ?_⟩
    rw [scan_eq]
    exact (congrFun Except.map_id _).symm
  | @next o lexeme word rest _ hdrop hfronts ih =>
    obtain ⟨tokens, hscan⟩ := ih
    refine ⟨tokens ++ ofLexeme (shownFile file) source (Position.ofOffset text o) lexeme, ?_⟩
    rw [hscan, drop_word hdrop, hdrop, scanFrom_piece _ _ _ hfronts, Position.advance_word hdrop]
    cases scanFrom (shownFile file) source (Position.ofOffset text (o + word.length)) 0 rest with
    | error e => rfl
    | ok later => simp [Except.map]

theorem bodyStart_cut {text' : Text} (hbegins : text' <+: text)
    (hlength : bodyStart text ≤ text'.length) : bodyStart text' = bodyStart text := by
  by_cases hmark : byteOrderMark <+: text
  · have hstart : bodyStart text = 3 := if_pos (List.isPrefixOf_iff_prefix.mpr hmark)
    rw [hstart] at hlength ⊢
    exact if_pos (List.isPrefixOf_iff_prefix.mpr
      (List.prefix_of_prefix_length_le hmark hbegins hlength))
  · have hstart : bodyStart text = 0 := if_neg fun h => hmark (List.isPrefixOf_iff_prefix.mp h)
    rw [hstart]
    exact if_neg fun h => hmark ((List.isPrefixOf_iff_prefix.mp h).trans hbegins)

/-- The pieces of a text are pieces of the text cut short behind them. -/
theorem cut (h : Starts text o) {text' : Text} (hbegins : text' <+: text)
    (ho : o ≤ text'.length) : Starts text' o := by
  induction h with
  | first =>
    rw [← bodyStart_cut hbegins ho]
    exact .first
  | @next o lexeme word rest _ hdrop hfronts ih =>
    have hshort : text'.drop o <+: word ++ rest := by
      obtain ⟨tail, rfl⟩ := hbegins
      rw [← hdrop, List.drop_append_of_le_length (by omega)]
      exact List.prefix_append _ tail
    have hword : word <+: text'.drop o := by
      apply List.prefix_of_prefix_length_le (List.prefix_append word rest) hshort
      rw [List.length_drop]
      omega
    obtain ⟨rest', hrest⟩ := hword
    rw [← hrest] at hshort
    exact .next (ih (by omega)) hrest.symm
      (hfronts.cut ((List.prefix_append_right_inj word).mp hshort))

/-- What comes before a piece is accepted by itself. -/
theorem accepted (h : Starts text o) (file : Text) (source : Option Source) :
    ∃ tokens, Token.scan file source (text.take o) = .ok tokens := by
  have hlength : (text.take o).length = o := List.length_take_of_le h.le_length
  obtain ⟨tokens, hscan⟩ := (h.cut (List.take_prefix o text) hlength.ge).scan file source
  rw [List.drop_eq_nil_of_le hlength.le] at hscan
  exact ⟨_, hscan⟩

end Starts

theorem starts_of_scanFrom {file : Text} {source : Option Source} {text left : Text} {o : Nat}
    {e : SyntaxError} (hstarts : Starts text o) (hleft : text.drop o = left)
    (h : scanFrom file source (Position.ofOffset text o) 0 left = .error e) :
    ∃ o m, Starts text o ∧ Lexeme.Fault (text.drop o) m ∧
      e = ⟨m.complaint, locate file source (Position.ofOffset text (o + m.offset)) m.length⟩ := by
  induction left using Lexeme.piece_induction generalizing o with
  | nil => cases h
  | @piece lexeme word rest hfronts ih =>
    rw [scanFrom_piece _ _ _ hfronts, Position.advance_word hleft] at h
    refine ih (.next hstarts hleft hfronts) (drop_word hleft) ?_
    cases hlater : scanFrom file source (Position.ofOffset text (o + word.length)) 0 rest with
    | error e' =>
      rw [hlater] at h
      cases h
      rfl
    | ok later =>
      rw [hlater] at h
      cases h
  | @fault _ m hfault =>
    rw [scanFrom_fault _ _ _ hfault, ← hleft, Position.advance_take] at h
    exact ⟨o, m, hstarts, hleft ▸ hfault, (Except.error.inj h).symm⟩

end Token

/-- A text is refused exactly if a fault stands where a piece has to begin, and then for this fault.
The text before it is accepted by itself. -/
theorem scan_eq_error_iff {file : Text} {source : Option Source} {text : Text} {e : SyntaxError} :
    Token.scan file source text = .error e ↔
      ∃ o m, Token.Starts text o ∧ (∃ tokens, Token.scan file source (text.take o) = .ok tokens) ∧
        Lexeme.Fault (text.drop o) m ∧
        e = ⟨m.complaint, Token.locate (Token.shownFile file) source
          (Position.ofOffset text (o + m.offset)) m.length⟩ := by
  constructor
  · intro h
    rw [Token.scan_eq] at h
    obtain ⟨o, m, hstarts, hfault, he⟩ := Token.starts_of_scanFrom .first rfl h
    exact ⟨o, m, hstarts, hstarts.accepted file source, hfault, he⟩
  · rintro ⟨o, m, hstarts, -, hfault, rfl⟩
    obtain ⟨tokens, hscan⟩ := hstarts.scan file source
    rw [hscan, Token.scanFrom_fault _ _ _ hfault, Position.advance_take]
    rfl

example : Token.scan [] none "x = '\\t\\q';" =
    .error ⟨.unknownEscape 'q'.toUInt8, ⟨"<input>", 1, 8, 2, none⟩⟩ := by
  decide

end Script
