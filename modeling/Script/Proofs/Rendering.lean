import Script.Value.Literal
import Script.Proofs.Printing
import Script.Proofs.Scanning

/-!
# Rendered tokens

The tokens of a text, written out with a space between neighbours, are read as the same tokens. A
string is written as a literal with escapes; all other tokens are written as they were spelled. The
space keeps apart what would grow together: two words, the parts of a number, a slash and a star.
-/

namespace Script

open Lexeme

/-! ## Strings -/

/-- Between double quotes a byte stands for itself or has an escape. -/
theorem Lexeme.decodes_quoteByte (b : UInt8) {content value : Text}
    (h : Decodes Byte.doubleQuote content value) :
    Decodes Byte.doubleQuote (quoteByte b ++ content) (b :: value) := by
  unfold quoteByte
  split_ifs with hquote hbackslash hnewline htab hreturn
  · rw [hquote]
    exact .escape (by decide) h
  · rw [hbackslash]
    exact .escape (by decide) h
  · rw [hnewline]
    exact .escape (by decide) h
  · rw [htab]
    exact .escape (by decide) h
  · rw [hreturn]
    exact .escape (by decide) h
  · exact .plain hquote hnewline hbackslash h

theorem Lexeme.decodes_quoted (value : Text) :
    Decodes Byte.doubleQuote (value.flatMap quoteByte) value := by
  induction value with
  | nil => exact .nil
  | cons b value ih =>
    rw [List.flatMap_cons]
    exact decodes_quoteByte b ih

namespace Token

theorem spells_quoteText (value rest : Text) :
    Spells (quoteText value) [⟨.string, value, {}⟩] rest := by
  have htext : quoteText value =
      Byte.doubleQuote :: (value.flatMap quoteByte ++ [Byte.doubleQuote]) := rfl
  rw [htext]
  refine spells_token ?_
  rw [List.append_assoc, List.singleton_append, next_quote (.inl rfl),
    quoted_closed (.inl rfl) (decodes_quoted value), List.length_append]
  simp only [Except.map, List.length_singleton]
  rw [Nat.add_comm 1]

/-! ## Single tokens -/

/-- What is written for a token. -/
def rendered (t : Token) : Text :=
  if t.kind = .string then quoteText t.value else t.value

/-- The tokens of a text as another text: without the end of the input, and with one space between
neighbours. -/
def render (tokens : List Token) : Text :=
  Text.join " " ((tokens.filter (·.kind ≠ .endOfInput)).map rendered)

/-- Before a space or the end of the text, what is written for a token is read as the token. -/
theorem spells_rendered {t : Token} (h : Spelling t.kind t.value) {rest : Text}
    (hrest : ∀ b ∈ rest.head?, b = Byte.space) : Spells t.rendered [t.unplaced] rest := by
  obtain ⟨kind, value, location⟩ := t
  have hcalm : Calm rest := by
    cases rest with
    | nil => exact calm_nil
    | cons b rest =>
      obtain rfl := hrest b rfl
      change Calm ([Byte.space] ++ rest)
      exact calm_append (by decide) rest
  have hhead (b : UInt8) (hb : b ≠ Byte.space) : rest.head? ≠ some b := fun hb' => hb (hrest b hb')
  by_cases hkind : kind = .string
  · subst hkind
    exact spells_quoteText value rest
  · rw [rendered, if_neg hkind]
    cases h with
    | pair hb => exact spells_token (next_pair hb rest)
    | punctuation hb =>
      refine spells_token (next_single hb (fun _ => ?_) (.inr ?_))
      · exact ⟨hhead _ (by decide), hhead _ (by decide)⟩
      · exact hhead _ (by decide)
    | string => exact absurd rfl hkind
    | numeral hvalue => exact spells_numeral hvalue hcalm
    | name hb hname => exact spells_name hb hname hcalm

/-! ## Lists of tokens -/

theorem spells_render {w : List Token} (h : ∀ t ∈ w, Spelling t.kind t.value) :
    Spells (Text.join " " (w.map rendered)) (w.map unplaced) [] := by
  induction w with
  | nil => exact spells_nil []
  | cons t w ih =>
    obtain ⟨ht, hw⟩ := List.forall_mem_cons.mp h
    cases w with
    | nil =>
      have hone : Spells t.rendered [t.unplaced] [] := spells_rendered ht (by simp)
      simpa [Text.join] using hone
    | cons t' w =>
      have hspace : ∀ b ∈ (Byte.space :: (Text.join " " ((t' :: w).map rendered) ++ [])).head?,
          b = Byte.space := by
        rintro b ⟨⟩
        rfl
      have hall := ((spells_rendered ht hspace).append (spells_space _)).append (ih hw)
      simp only [Text.join, List.map_cons, List.intercalate_cons_cons]
      exact hall

end Token

/-- Writing out the tokens of a text and reading what is written gives the same tokens, up to their
places. -/
theorem rendered_tokens_read {file text : Text} {source : Option Source} {tokens : List Token}
    (h : Token.scan file source text = .ok tokens) (file' : Text) (source' : Option Source) :
    ∃ tokens', Token.scan file' source' (Token.render tokens) = .ok tokens' ∧
      tokens'.map Token.unplaced = tokens.map Token.unplaced := by
  obtain ⟨w, last, rfl, hlast, hw⟩ := Token.scan_spelling h
  have hfilter : (w ++ [last]).filter (·.kind ≠ .endOfInput) = w := by
    have hkind : last.kind = .endOfInput := congrArg Token.kind hlast
    rw [List.filter_append, List.filter_singleton]
    simp only [hkind]
    simpa using fun t ht => (hw t ht).kind_ne_endOfInput
  rw [Token.render, hfilter]
  obtain ⟨w', last', hw', hlast', hscan⟩ := (Token.spells_render hw).scan file' source'
  refine ⟨w' ++ [last'], hscan, ?_⟩
  rw [List.map_append, List.map_append, hw', List.map_singleton, List.map_singleton, hlast, hlast']

/-- Numbers that a point or an exponent mark ends, a string with escapes, and operators in a row. -/
theorem crowded_tokens_read :
    let t (kind : Token.Kind) (value : Text) (col length : Nat) : Token :=
      ⟨kind, value, "<input>", 1, col, length, none⟩
    let tokens := [t .number "1.2" 1 3, t .dot "." 4 1, t .number "3" 5 1, t .identifier "e" 6 1,
      t .plus "+" 7 1, t .string "'\"\n" 8 7, t .lessEqual "<=" 15 2, t .assign "=" 17 1,
      t .identifier "~a" 18 2, t .slash "/" 25 1, t .endOfInput [] 26 0]
    Token.scan [] none "1.2.3e+'\\'\"\\n'<==~a/*c*//" = .ok tokens ∧
      Token.render tokens = "1.2 . 3 e + \"'\\\"\\n\" <= = ~a /" ∧
      ∃ tokens', Token.scan [] none "1.2 . 3 e + \"'\\\"\\n\" <= = ~a /" = .ok tokens' ∧
        tokens'.map Token.unplaced = tokens.map Token.unplaced := by
  intro t tokens
  have hscan : Token.scan [] none "1.2.3e+'\\'\"\\n'<==~a/*c*//" = .ok tokens := by decide +kernel
  have hrender : Token.render tokens = "1.2 . 3 e + \"'\\\"\\n\" <= = ~a /" := by decide +kernel
  exact ⟨hscan, hrender, hrender ▸ rendered_tokens_read hscan [] none⟩

end Script
