import Script.Proofs.Grammar.Completeness
import Script.Proofs.Printing.Word
import Script.Proofs.Scanning

/-!
# Printed expressions

An expression that has been parsed can be printed and parsed again. Both directions meet in the
word of the expression: the text of the expression reads as that word, and the word spells the
expression.
-/

namespace Script

open Grammar Lexeme

/-- The text of a legible expression reads as its word and the end of the input. -/
theorem Expr.Legible.scan {e : Expr} (h : e.Legible) (file : Text) (source : Option Source) :
    ∃ w last, w.map Token.unplaced = e.word ∧ last.kind = .endOfInput ∧
      Token.scan file source e.text = .ok (w ++ [last]) := by
  obtain ⟨w, last, hw, hlast, hscan⟩ := (h [] calm_nil).scan file source
  exact ⟨w, last, hw, congrArg Token.kind hlast, hscan⟩

/-- Let a text parse, and take any expression in the program, with no string that needs an escape
and no call of a member inside. Its text parses too, as a program of one statement, which is the
same expression up to the places of its tokens. -/
theorem printed_expression_read {file text : Text} {source : Option Source} {tokens : List Token}
    {program : Program} (hscan : Token.scan file source text = .ok tokens)
    (hparse : Program.parse tokens = .ok program) {s : Stmt} (hs : s ∈ program.statements)
    {whole e : Expr} (hwhole : whole ∈ s.exprs) (he : e ∈ whole.parts) (hhole : e ≠ .hole)
    (hprintable : ∀ p ∈ e.parts, p.Printable) (file' : Text) (source' : Option Source) :
    ∃ tokens' t e', Token.scan file' source' e.text = .ok tokens' ∧
      Program.parse tokens' = .ok ⟨t, [.expr e' t]⟩ ∧
      e'.mapTokens Token.unplaced = e.mapTokens Token.unplaced := by
  -- Tokens of the text spell the expression, and each of them is spelled like its kind.
  obtain ⟨front, last, rfl, hlast, hfront⟩ := Token.scanFrom_spelling hscan
  obtain ⟨-, w, _, rest, htokens, -, hbody⟩ :=
    Program.body_of_parse List.getLast?_concat hlast hparse
  obtain ⟨level, v, hv, hspells⟩ := hbody.occurs hs hwhole he hhole
  have hspelling : ∀ t ∈ v, Spelling t.kind t.value := by
    intro t ht
    have hmem : t ∈ front ++ [last] := htokens ▸ List.mem_append_left _ (hv ht)
    obtain hmem | rfl := (List.mem_append.mp hmem).imp_right List.mem_singleton.mp
    · exact hfront t hmem
    · exact absurd hlast (hspells.inside t ht)
  -- What is printed reads as the word of the expression, and the word spells it again.
  obtain ⟨w', last', hw', hlast', hscan'⟩ :=
    (hspells.legible hspelling hprintable).scan file' source'
  obtain ⟨e', hspells', halike⟩ :=
    (hspells.respelled hprintable).spells hw' .assignment (by decide)
  obtain ⟨t', v', rfl⟩ := List.exists_cons_of_ne_nil hspells'.ne_nil
  exact ⟨_, t', e', hscan', Program.parse_expression hspells' hlast', halike⟩

/-- The point after a number belongs to a member here, and the name of the member must not become
an exponent. -/
theorem member_of_number_read :
    let t (kind : Token.Kind) (value : Text) (col length : Nat) : Token :=
      ⟨kind, value, "<input>", 1, col, length, none⟩
    let tokens := [t .identifier "x" 1 1, t .assign "=" 3 1, t .minus "-" 5 1, t .number "1" 6 1,
      t .dot "." 7 1, t .identifier "e5" 8 2, t .openBracket "[" 10 1, t .string "q" 11 3,
      t .closeBracket "]" 14 1, t .openParen "(" 15 1, t .identifier "y" 16 1, t .comma "," 17 1,
      t .closeParen ")" 19 1, t .endOfInput [] 20 0]
    let member := Expr.member (.number (Number.ofText "1") (t .number "1" 6 1)) "e5"
      (t .identifier "e5" 8 2)
    let index := Expr.index member (.string "q" (t .string "q" 11 3)) (t .openBracket "[" 10 1)
    let call := Expr.call index [.ident "y" (t .identifier "y" 16 1)] (t .openBracket "[" 10 1)
    let e := Expr.assign (.ident "x" (t .identifier "x" 1 1)) (.negate call (t .minus "-" 5 1))
      (t .assign "=" 3 1)
    Token.scan [] none "x = -1.e5['q'](y, )" = .ok tokens ∧
      Program.parse tokens = .ok ⟨t .identifier "x" 1 1, [.expr e (t .identifier "x" 1 1)]⟩ ∧
      ∃ tokens' t' e', Token.scan [] none "(x = (-1.e5[\"q\"](y)))" = .ok tokens' ∧
        Program.parse tokens' = .ok ⟨t', [.expr e' t']⟩ ∧
        e'.mapTokens Token.unplaced = e.mapTokens Token.unplaced := by
  intro t tokens member index call e
  have hscan : Token.scan [] none "x = -1.e5['q'](y, )" = .ok tokens := by decide +kernel
  have hparse : Program.parse tokens =
      .ok ⟨t .identifier "x" 1 1, [.expr e (t .identifier "x" 1 1)]⟩ := rfl
  have hq : ∀ b ∈ ("q" : Text), b ≠ Byte.doubleQuote ∧ b ≠ Byte.backslash ∧ b ≠ Byte.newline := by
    decide +kernel
  have hprintable : ∀ p ∈ e.parts, p.Printable := by
    simpa [e, call, index, member, Expr.parts, Expr.partsAll, Expr.Printable] using hq
  exact ⟨hscan, hparse, printed_expression_read hscan hparse (List.mem_singleton_self _)
    (List.mem_singleton_self e) e.self_mem_parts (by simp [e]) hprintable [] none⟩

end Script
