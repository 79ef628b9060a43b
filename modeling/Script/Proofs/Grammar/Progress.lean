import Script.Proofs.Grammar.Occurrence
import Script.Proofs.Grammar.Seam

/-!
# The parser comes to an end before the input does

A token for the end of the input is never taken. So a parser needs no more tokens than there are up
to the first of them, and does not care for what stands behind it; and since every round of a loop
and every nested phrase takes a token, a count above the number of tokens never runs out.
-/

namespace Script

open Grammar

/-- One of the tokens for the end of the input is the first. -/
theorem Grammar.Ended.exists_first {tokens : List Token} (h : Ended tokens) :
    ∃ w last v, tokens = w ++ last :: v ∧ Inside w ∧ last.kind = .endOfInput := by
  induction tokens with
  | nil => exact absurd rfl h.ne_nil
  | cons t v ih =>
    by_cases ht : t.kind = .endOfInput
    · exact ⟨[], t, v, rfl, inside_nil, ht⟩
    · have hinside : Inside [t] := by simp [ht]
      obtain ⟨w, last, v', rfl, hw, hlast⟩ := ih (h.rest hinside)
      exact ⟨t :: w, last, v', rfl, inside_cons.mpr ⟨ht, hw⟩, hlast⟩

theorem Grammar.Inside.takeWhile_eq {w v : List Token} {last : Token} (hw : Inside w)
    (hlast : last.kind = .endOfInput) :
    (w ++ last :: v).takeWhile (·.kind ≠ .endOfInput) = w := by
  rw [List.takeWhile_append_of_pos (by simpa [Inside] using hw),
    List.takeWhile_cons_of_neg (by simp [hlast]), List.append_nil]

namespace Parser

variable {α : Type}

/-- With every count above the number of tokens, a parser succeeds or refuses at token number `k`,
whatever stands behind the token `last`. -/
def EndsAt (p : Nat → Parser α) (w : List Token) (last : Token) (k : Nat)
    (result : Except Complaint α) : Prop :=
  ∀ n v, (w ++ last :: v).length < n → p n (w ++ last :: v) =
    match result with
    | .ok a => .ok (a, (w ++ last :: v).drop k)
    | .error complaint => .error ⟨complaint, (w ++ last :: v).drop k⟩

/-- A parser comes to an end at the token `last` at the latest, and not because of its count. -/
def Halts (p : Nat → Parser α) (w : List Token) (last : Token) : Prop :=
  ∃ k result, k ≤ w.length ∧ result ≠ .error .unendedTokens ∧ EndsAt p w last k result

/-- A token of a list stands at the same place in every longer one. -/
theorem split_extend {w w' v' : List Token} {t last : Token} (h : w ++ [last] = w' ++ t :: v') :
    w'.length ≤ w.length ∧ ∀ v, w ++ last :: v = w' ++ t :: (v' ++ v) := by
  constructor
  · have hlength := congrArg List.length h
    simp only [List.length_append, List.length_cons, List.length_nil] at hlength
    omega
  · intro v
    rw [List.append_cons, h, List.append_assoc, List.cons_append]

theorem halts_of_viable {p : Nat → Parser α} {entry follow : Token.Kind → Prop} {strict : Bool}
    (hviable : ∀ n, Viable (p n) (fun m : { m // n + 1 < m } => p m) entry follow strict (n - 1))
    (w : List Token) {last : Token} (hlast : last.kind = .endOfInput) : Halts p w last := by
  have hended (v : List Token) : Ended (w ++ last :: v) := ⟨last, by simp, hlast⟩
  let least := w.length + 2
  have hcourse := (hviable least).course (w ++ [last]) (hended []) (by simp [least])
  -- The course is about large counts. A smaller one does the same if the list is short enough.
  have hcount {n : Nat} {v : List Token} (hn : (w ++ last :: v).length < n) :
      p n (w ++ last :: v) = p (n + least + 2) (w ++ last :: v) := by
    have hagrees := ((hviable n).course _ (hended v) (Nat.le_sub_one_of_lt hn)).agrees
    exact (hagrees ⟨n + least + 2, by omega⟩).symm
  cases hcourse with
  | @takes w' t v' a hsplit _ _ _ hq =>
    obtain ⟨hlength, hextend⟩ := split_extend hsplit
    refine ⟨w'.length, .ok a, hlength, by simp, fun n v hn => ?_⟩
    rw [hcount hn, hextend, List.drop_left]
    exact hq ⟨n + least + 2, by omega⟩ t (v' ++ v) (.inl rfl)
  | @refuses w' t v' complaint hsplit _ hcomplaint _ hq _ =>
    obtain ⟨hlength, hextend⟩ := split_extend hsplit
    refine ⟨w'.length, .error complaint, hlength, by simpa using hcomplaint, fun n v hn => ?_⟩
    rw [hcount hn, hextend, List.drop_left]
    exact hq ⟨n + least + 2, by omega⟩ (v' ++ v)

theorem expression_halts (w : List Token) {last : Token} (hlast : last.kind = .endOfInput) :
    Halts expression w last :=
  halts_of_viable (fun _ => expression_viable Subtype.property) w hlast

theorem statement_halts (w : List Token) {last : Token} (hlast : last.kind = .endOfInput) :
    Halts statement w last :=
  halts_of_viable (fun _ => statement_viable Subtype.property) w hlast

theorem program_halts (w : List Token) {last : Token} (hlast : last.kind = .endOfInput) :
    Halts (fun n => program (statement n) n) w last :=
  halts_of_viable (fun _ => program_viable Subtype.property) w hlast

/-- A program is only done at the token for the end. -/
theorem program_done_at_end {w v : List Token} {last : Token} {n k : Nat} {body : List Stmt}
    (hinside : Inside w) (hk : k ≤ w.length)
    (h : program (statement n) n (w ++ last :: v) = .ok (body, (w ++ last :: v).drop k)) :
    k = w.length := by
  obtain ⟨-, -, -, t, v', hrest, ht⟩ := program_sound (statement_sound n) n h
  by_contra hne
  have hlt : k < w.length := Nat.lt_of_le_of_ne hk hne
  rw [List.drop_append_of_le_length hk, List.drop_eq_getElem_cons hlt] at hrest
  cases hrest
  exact hinside _ (List.getElem_mem hlt) ht

end Parser

/-- A `return` is reported at its word. -/
theorem Grammar.Body.return_mem {ending : List Token → Prop} {w : List Token} {body : List Stmt}
    (h : Body ending w body) {value : Expr} {t : Token}
    (hs : .ret value t ∈ Stmt.statementsAll body) : t ∈ w ∧ t.kind = .returnWord := by
  have hlocal : Local ending fun w s =>
      ∀ value t, s = .ret value t → t ∈ w ∧ t.kind = .returnWord :=
    { mono := fun h hw value t hs => ⟨hw (h value t hs).1, (h value t hs).2⟩
      initializer := fun h value t hs => by cases h <;> cases hs
      statement := fun h value t hs => by
        induction h with
        | func _ ih | branch _ ih => exact ih hs
        | ret hword _ _ =>
          cases hs
          exact ⟨by simp, hword⟩
        | _ => cases hs }
  exact h.forall_statements hlocal _ hs value t rfl

namespace Program

/-- How the parser gets through a list of tokens in which `last`, behind `w`, is the first token for
the end of the input. -/
structure ReadBefore (tokens w : List Token) (last : Token) : Prop where
  /-- It comes to an end: with a program at that token, or with an error there or before. -/
  program : ∃ k result, k ≤ w.length ∧ result ≠ .error .unendedTokens ∧
    Parser.EndsAt (fun n => Parser.program (Parser.statement n) n) w last k result ∧
    match result with
    | .ok body => k = w.length ∧ parse tokens = .ok ⟨tokens.headD {}, body⟩
    | .error complaint => ∃ t, tokens[k]? = some t ∧ parse tokens = .error ⟨complaint, t.location⟩
  /-- So do the parsers of statements and expressions, from wherever they are called. -/
  phrases : ∀ i ≤ w.length,
    Parser.Halts Parser.statement (w.drop i) last ∧ Parser.Halts Parser.expression (w.drop i) last
  /-- What follows a `return` is read with the word right in front of it. -/
  returned : ∀ i t, tokens[i]? = some t → t.kind = .returnWord → ∀ n,
    Parser.statement (n + 1) (tokens.drop i) =
      Parser.returned (Parser.expression (n + 1)) t (tokens.drop (i + 1))
  /-- And this word is what the statement is reported at. -/
  recorded : ∀ p, parse tokens = .ok p → ∀ value t, .ret value t ∈ p.statements →
    t.kind = .returnWord ∧ ∃ i, i < w.length ∧ tokens[i]? = some t

end Program

/-- A list that ends with a token for the end of the input is read up to the first such token at
most. -/
theorem parser_stops_at_first_end {tokens : List Token} (hfinished : Finished tokens) :
    ∃ w last v, tokens = w ++ last :: v ∧ Inside w ∧ last.kind = .endOfInput ∧
      Program.ReadBefore tokens w last := by
  obtain ⟨w, last, v, rfl, hinside, hlast⟩ := hfinished.ended.exists_first
  refine ⟨w, last, v, rfl, hinside, hlast, ?_, fun i _ => ?_, fun i t hget ht n => ?_, ?_⟩
  · obtain ⟨k, result, hk, hresult, hends⟩ := Parser.program_halts w hlast
    have hrun := hends _ v (Nat.lt_succ_self _)
    refine ⟨k, result, hk, hresult, hends, ?_⟩
    cases result with
    | ok body =>
      exact ⟨Parser.program_done_at_end hinside hk hrun, Program.parse_of_ok hfinished hrun⟩
    | error complaint =>
      have hlt : k < (w ++ last :: v).length := by simp; omega
      refine ⟨_, List.getElem?_eq_getElem hlt, ?_⟩
      rw [Program.parse_of_error hfinished hrun, List.drop_eq_getElem_cons hlt, List.headD_cons]
  · exact ⟨Parser.statement_halts _ hlast, Parser.expression_halts _ hlast⟩
  · obtain ⟨hlt, rfl⟩ := List.getElem?_eq_some_iff.mp hget
    rw [List.drop_eq_getElem_cons hlt, Parser.statement, Parser.statementWith_return ht]
  · intro p hparse value t hmem
    obtain ⟨last', hlast', hend⟩ := hfinished
    obtain ⟨-, w', t', v', hsplit, ht', hbody⟩ := Program.body_of_parse hlast' hend hparse
    have hinside' : Inside w' := hbody.inside fun _ => Ending.inside
    obtain rfl : w = w' := by
      rw [← hinside.takeWhile_eq hlast, hsplit, hinside'.takeWhile_eq ht']
    obtain ⟨hword, hkind⟩ := hbody.return_mem hmem
    obtain ⟨i, hi, rfl⟩ := List.mem_iff_getElem.mp hword
    exact ⟨hkind, i, hi, by rw [List.getElem?_append_left hi, List.getElem?_eq_getElem hi]⟩

/-- The brace behind the first end does not keep the `return` before it from being a program. -/
theorem return_before_first_end :
    let t (kind : Token.Kind) : Token := { kind }
    let tokens := [.returnWord, .endOfInput, .closeBrace, .endOfInput].map t
    Finished tokens ∧
      Program.parse tokens = .ok ⟨t .returnWord, [.ret .hole (t .returnWord)]⟩ ∧
      ∃ w last v, tokens = w ++ last :: v ∧ Inside w ∧ last.kind = .endOfInput ∧
        Program.ReadBefore tokens w last := by
  intro t tokens
  have hfinished : Finished tokens := ⟨t .endOfInput, rfl, rfl⟩
  exact ⟨hfinished, rfl, parser_stops_at_first_end hfinished⟩

end Script
