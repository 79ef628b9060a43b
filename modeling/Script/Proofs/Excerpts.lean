import Script.Proofs.Scanning

/-! # Quoted lines

The scanner counts lines and columns while it reads, and excerpts quote lines that were split off
beforehand. The two agree: the excerpt of a token quotes the line on which the token stands, and its
carets stand below the token. Only carriage returns come between: columns count them and quoted
lines do not have them, so each one that stands before a token moves the carets by one. -/

namespace Script

namespace Text

/-- What stands behind the last newline. -/
def lastLine (text : Text) : Text :=
  (text.reverse.takeWhile (· != Byte.newline)).reverse

/-- What stands before a byte on its line. -/
def lineBefore (text : Text) (o : Nat) : Text :=
  lastLine (text.take o)

/-- The line on which a byte stands. -/
def lineAt (text : Text) (o : Nat) : Text :=
  lineBefore text o ++ (text.drop o).takeWhile (· != Byte.newline)

/-- A text without its carriage returns. -/
def unreturned (text : Text) : Text :=
  text.filter (· != Byte.carriageReturn)

theorem lastLine_concat (text : Text) (b : UInt8) :
    lastLine (text ++ [b]) = if b = Byte.newline then [] else lastLine text ++ [b] := by
  by_cases hb : b = Byte.newline <;> simp [lastLine, hb]

theorem length_lineBefore (text : Text) (o : Nat) : (lineBefore text o).length =
    ((text.take o).reverse.takeWhile (· != Byte.newline)).length :=
  List.length_reverse

theorem unreturned_append (s t : Text) : unreturned (s ++ t) = unreturned s ++ unreturned t :=
  List.filter_append s t

theorem forall_bne {text : Text} {b : UInt8} (h : b ∉ text) : ∀ c ∈ text, (c != b) = true := by
  intro c hc
  rw [bne_iff_ne]
  rintro rfl
  exact h hc

theorem unreturned_of_notMem {text : Text} (h : Byte.carriageReturn ∉ text) :
    unreturned text = text :=
  List.filter_eq_self.mpr (forall_bne h)

theorem length_unreturned (text : Text) :
    (unreturned text).length + text.count Byte.carriageReturn = text.length := by
  have hparts := text.length_eq_countP_add_countP (· != Byte.carriageReturn)
  rw [unreturned, ← List.countP_eq_length_filter, List.count]
  simpa [BEq.beq] using hparts.symm

end Text

/-! ## Lines that are split off -/

namespace Source

theorem getD_zero_addByte {b : UInt8} (hb : b ≠ Byte.newline) (lines : List Text) :
    (addByte b lines).getD 0 [] = Text.unreturned [b] ++ lines.getD 0 [] := by
  by_cases hreturn : b = Byte.carriageReturn
  · subst hreturn
    rfl
  · cases lines <;> simp [addByte, hb, hreturn, Text.unreturned]

theorem getD_succ_addByte {b : UInt8} (hb : b ≠ Byte.newline) (lines : List Text) (n : Nat) :
    (addByte b lines).getD (n + 1) [] = lines.getD (n + 1) [] := by
  by_cases hreturn : b = Byte.carriageReturn
  · subst hreturn
    rfl
  · cases lines <;> simp [addByte, hb, hreturn]

/-- Text put in front pushes all lines but the first down by the number of its newlines. -/
theorem getD_foldr_addByte_succ (text : Text) (lines : List Text) (n : Nat) :
    (text.foldr addByte lines).getD (text.count Byte.newline + (n + 1)) [] =
      lines.getD (n + 1) [] := by
  induction text with
  | nil => simp
  | cons b text ih =>
    rw [List.foldr_cons]
    by_cases hb : b = Byte.newline
    · subst hb
      rw [List.count_cons_self, Nat.add_right_comm, ← ih]
      simp [addByte]
    · rw [List.count_cons_of_ne hb, ← ih]
      exact getD_succ_addByte hb _ _

/-- Text put in front goes on with the first line where its own last line ends. -/
theorem getD_foldr_addByte (text : Text) (lines : List Text) :
    (text.foldr addByte lines).getD (text.count Byte.newline) [] =
      Text.unreturned (Text.lastLine text) ++ lines.getD 0 [] := by
  induction text using List.reverseRecOn generalizing lines with
  | nil => simp [Text.lastLine, Text.unreturned]
  | append_singleton text b ih =>
    rw [List.foldr_append, List.count_append, Text.lastLine_concat]
    by_cases hb : b = Byte.newline
    · subst hb
      have hdown := getD_foldr_addByte_succ text ([] :: lines) 0
      simpa [addByte, Text.unreturned] using hdown
    · have hlast := ih (addByte b lines)
      rw [getD_zero_addByte hb, ← List.append_assoc, ← Text.unreturned_append] at hlast
      simpa [hb] using hlast

theorem getD_zero_splitLines (text : Text) :
    (splitLines text).getD 0 [] = Text.unreturned (text.takeWhile (· != Byte.newline)) := by
  induction text with
  | nil => rfl
  | cons b text ih =>
    rw [splitLines, List.foldr_cons]
    by_cases hb : b = Byte.newline
    · simp [addByte, hb, Text.unreturned]
    · have hline : (b :: text).takeWhile (· != Byte.newline) =
          [b] ++ text.takeWhile (· != Byte.newline) := by simp [hb]
      rw [getD_zero_addByte hb, hline, Text.unreturned_append, ← ih, splitLines]

/-- The line with the number that the scanner has counted up to a byte is the line of the byte. -/
theorem line_ofText (name text : Text) (o : Nat) :
    (ofText name text).line (Position.ofOffset text o).line =
      Text.unreturned (Text.lineAt text o) := by
  have hsplit : splitLines text = (text.take o).foldr addByte (splitLines (text.drop o)) := by
    rw [splitLines, splitLines, ← List.foldr_append, List.take_append_drop]
  have hnumber : ¬ ((Position.ofOffset text o).line : Int) < 1 := by
    simp only [Position.ofOffset]
    omega
  have hindex : (((Position.ofOffset text o).line : Int) - 1).toNat =
      (text.take o).count Byte.newline := by
    simp only [Position.ofOffset]
    omega
  rw [line, if_neg hnumber, hindex, ofText, hsplit, getD_foldr_addByte, getD_zero_splitLines,
    Text.lineAt, Text.unreturned_append, Text.lineBefore]

end Source

/-! ## Excerpts of tokens -/

theorem Lexeme.Decodes.newline_notMem {quote : UInt8} {content value : Text}
    (h : Decodes quote content value) : Byte.newline ∉ content := by
  induction h with
  | nil => exact List.not_mem_nil
  | plain _ hb _ _ ih => exact List.not_mem_cons_of_ne_of_not_mem hb.symm ih
  | escape hescape _ ih =>
    refine List.not_mem_cons_of_ne_of_not_mem (by decide)
      (List.not_mem_cons_of_ne_of_not_mem ?_ ih)
    rintro rfl
    cases hescape

/-- A token stands on one line. -/
theorem Lexeme.Reading.newline_notMem {kind : Token.Kind} {value word rest : Text}
    (h : Reading kind value word rest) : Byte.newline ∉ word := by
  cases h with
  | mark hmark => exact hmark.newline_notMem
  | string hquote hdecodes =>
    have hcontent := hdecodes.newline_notMem
    rcases hquote with rfl | rfl <;> simp +decide [hcontent]
  | number hlongest => exact hlongest.mem.newline_notMem
  | name hlongest => exact hlongest.mem.newline_notMem

namespace Location

/-- What stands in front of a quoted line. -/
def margin (l : Location) : Text :=
  " * " ++ Text.ofInt l.line ++ " | "

/-- The number of spaces in front of the carets. -/
def indent (l : Location) : Nat :=
  l.margin.length + (l.col - 1).toNat

/-- The excerpt at a location shows a word on a line. The line is quoted without its carriage
returns, and so is the word in it. The carets begin as many columns behind the beginning of the word
as there are carriage returns before it; without any there and in the word, they are exactly below
the word. -/
structure Shows (l : Location) (line before word : Text) : Prop where
  trace : l.trace = l.margin ++ line.unreturned ++ "\n" ++ Text.spaces l.indent ++
    List.replicate (max 1 l.length).toNat Byte.caret
  quoted : word.unreturned <+:
    line.unreturned.drop ((l.col - 1).toNat - before.count Byte.carriageReturn)
  beside : l.margin.length + before.count Byte.carriageReturn ≤ l.indent ∧ word.unreturned <+:
    (l.margin ++ line.unreturned).drop (l.indent - before.count Byte.carriageReturn)
  below : Byte.carriageReturn ∉ before → Byte.carriageReturn ∉ word →
    l.length = word.length ∧ word <+: (l.margin ++ line.unreturned).drop l.indent

end Location

theorem Span.shows_of_located {file name text rest : Text} {s : Span}
    (hlocation : s.token.location = Token.locate file (some (Source.ofText name text))
      (Position.ofOffset text s.start) s.word.length)
    (hdrop : text.drop s.start = s.word ++ rest) (hword : Byte.newline ∉ s.word) :
    s.token.location.Shows (text.lineAt s.start) (text.lineBefore s.start) s.word := by
  let before := text.lineBefore s.start
  have hcol : (s.token.location.col - 1).toNat = before.length := by
    rw [hlocation, Text.length_lineBefore]
    simp only [Token.locate, Position.ofOffset]
    omega
  have hlength : before.length - before.count Byte.carriageReturn = before.unreturned.length := by
    have hparts := before.length_unreturned
    omega
  have hline : text.lineAt s.start =
      before ++ (s.word ++ rest.takeWhile (· != Byte.newline)) := by
    rw [Text.lineAt, hdrop, List.takeWhile_append_of_pos (Text.forall_bne hword)]
  have hshown : s.word.unreturned <+: (text.lineAt s.start).unreturned.drop
      (before.length - before.count Byte.carriageReturn) := by
    rw [hlength, hline, Text.unreturned_append, List.drop_left, Text.unreturned_append]
    exact List.prefix_append _ _
  refine ⟨?_, by rwa [hcol], ⟨?_, ?_⟩, fun hbefore hreturns => ⟨by rw [hlocation]; rfl, ?_⟩⟩
  · rw [← Source.line_ofText name, hlocation]
    rfl
  · rw [Location.indent, hcol]
    exact Nat.add_le_add_left List.count_le_length _
  · rwa [Location.indent, hcol, Nat.add_sub_assoc List.count_le_length,
      List.drop_length_add_append]
  · rwa [Location.indent, hcol, List.drop_length_add_append, ← Nat.sub_zero before.length,
      ← List.count_eq_zero.mpr hbefore, ← Text.unreturned_of_notMem hreturns]

/-- The span of the token for the end of a text. -/
def Span.ending (file : Text) (source : Option Source) (text : Text) : Span :=
  ⟨text.length, [], Token.ending file source text⟩

/-- The tokens of a text, the one for its end included, are shown where they stand. -/
theorem tokens_shown_in_source {file name text : Text} {tokens : List Token}
    (h : Token.scan file (some (Source.ofText name text)) text = .ok tokens) :
    let source := some (Source.ofText name text)
    let ending := Span.ending (Token.shownFile file) source text
    ∃ spans, Tiled (Token.shownFile file) source text (Token.bodyStart text) spans ∧
      tokens = (spans ++ [ending]).map Span.token ∧
      ∀ s ∈ spans ++ [ending],
        s.token.location.Shows (text.lineAt s.start) (text.lineBefore s.start) s.word := by
  intro source ending
  rw [Token.scan_eq] at h
  obtain ⟨spans, htiled, htokens⟩ := Tiled.of_scanFrom rfl (Token.bodyStart_le text) h
  refine ⟨spans, htiled, by rw [htokens, List.map_append]; rfl, fun s hs => ?_⟩
  rcases List.mem_append.mp hs with hs | hs
  · obtain ⟨hlocation, ⟨rest, hdrop, hreading⟩, -⟩ := htiled.stands s hs
    exact Span.shows_of_located hlocation hdrop hreading.newline_notMem
  · obtain rfl := List.mem_singleton.mp hs
    exact Span.shows_of_located (s := ending) rfl List.drop_length List.not_mem_nil

/-- Behind a mark at the start of the text and a carriage return, the caret for `=` stands one
column too far to the right. -/
theorem token_behind_return_shown :
    let text : Text := "\uFEFFx\r= y\r\n"
    let source := some (Source.ofText [] text)
    let place (line col length : Int) : Location := ⟨"<input>", line, col, length, source⟩
    let tokens : List Token := [⟨.identifier, "x", place 1 4 1⟩, ⟨.assign, "=", place 1 6 1⟩,
      ⟨.identifier, "y", place 1 8 1⟩, ⟨.endOfInput, [], place 2 1 0⟩]
    let ending := Span.ending (Token.shownFile []) source text
    Token.scan [] source text = .ok tokens ∧
      (place 1 6 1).trace = Text.ofString " * 1 | \uFEFFx= y\n            ^" ∧
      ∃ spans, Tiled (Token.shownFile []) source text (Token.bodyStart text) spans ∧
        tokens = (spans ++ [ending]).map Span.token ∧
        ∀ s ∈ spans ++ [ending],
          s.token.location.Shows (text.lineAt s.start) (text.lineBefore s.start) s.word := by
  intro text source place tokens ending
  have hscan : Token.scan [] source text = .ok tokens := by decide
  exact ⟨hscan, by decide, tokens_shown_in_source hscan⟩

end Script
