import Script.Session
import Script.Proofs.Printing
import Script.Proofs.Rendering
import Script.Proofs.WholeNumbers

/-!
# Displayed data

The text that is shown for a value of plain data is an expression, and its value is the value that
was shown.
-/

namespace Script

open Grammar Lexeme

/-- Null, booleans, strings, whole numbers, and arrays of such values. -/
inductive Value.IsData : Value → Prop
  | null : IsData .null
  | boolean (b : Bool) : IsData (.boolean b)
  | string (s : Text) : IsData (.string s)
  | number {x : Number} {n : Int} : x.IsWhole n → IsData (.number x)
  | array {items : List Value} : (∀ v ∈ items, IsData v) → IsData (.array items)

/-- A text is shown for a value, it reads as a word, and what the word spells evaluates to the
value. -/
structure Value.Rereads (v : Value) (text : Text) (w : List Token) : Prop where
  shown (env : Env) (again : Value → Eval Text) : env.displayWith again .nested v = pure text
  spells {rest : Text} : Calm rest → Token.Spells text w rest
  spelled {w' : List Token} : w'.map Token.unplaced = w →
    ∃ e, Expression .unary w' e ∧ ∀ env : Env, env.evalExpr e = pure v
  resolved : (Evaluation.resolve v : Eval Value) = pure v

namespace Value

/-! ## Single tokens -/

/-- A value that one token denotes. -/
theorem rereads_token {v : Value} {kind : Token.Kind} {value text : Text}
    (hshown : ∀ (env : Env) (again : Value → Eval Text),
      env.displayWith again .nested v = pure text)
    (hspells : ∀ rest, Calm rest → Token.Spells text [⟨kind, value, {}⟩] rest)
    (hspelled : ∀ t : Token, t.kind = kind → t.value = value →
      ∃ e, Expression .primary [t] e ∧ ∀ env : Env, env.evalExpr e = pure v)
    (hresolved : (Evaluation.resolve v : Eval Value) = pure v) :
    v.Rereads text [⟨kind, value, {}⟩] := by
  refine ⟨hshown, hspells _, fun hw => ?_, hresolved⟩
  obtain ⟨t, rfl, ht⟩ := List.map_eq_singleton_iff.mp hw
  obtain ⟨hkind, hvalue, -⟩ := Token.mk.inj ht
  obtain ⟨e, he, hvalue⟩ := hspelled t hkind hvalue
  exact ⟨e, he.loosen (by decide), hvalue⟩

theorem rereads_null : Rereads .null "null" [⟨.null, "null", {}⟩] := by
  have hspelling : Spelling .null "null" := @Spelling.name 110 [117, 108, 108] rfl (by decide +kernel)
  refine rereads_token (fun _ _ => rfl) (fun _ => Token.spells_word hspelling rfl) ?_ rfl
  exact fun t hkind _ => ⟨.null t, .null hkind, fun _ => rfl⟩

theorem rereads_boolean (b : Bool) :
    Rereads (.boolean b) (if b then "true" else "false")
      [⟨.boolean, if b then "true" else "false", {}⟩] := by
  have hspelling : Spelling .boolean (if b then "true" else "false") := by
    cases b with
    | false => exact @Spelling.name 102 [97, 108, 115, 101] rfl (by decide +kernel)
    | true => exact @Spelling.name 116 [114, 117, 101] rfl (by decide +kernel)
  refine rereads_token (fun _ _ => rfl) (fun _ => Token.spells_word hspelling rfl) ?_ rfl
  intro t hkind hvalue
  refine ⟨_, .boolean hkind, fun env => ?_⟩
  rw [hvalue]
  cases b <;> rfl

theorem rereads_string (s : Text) : Rereads (.string s) (quoteText s) [⟨.string, s, {}⟩] := by
  refine rereads_token (fun _ _ => rfl) (fun rest _ => Token.spells_quoteText s rest) ?_ rfl
  intro t hkind hvalue
  refine ⟨_, .string hkind, fun env => ?_⟩
  rw [hvalue]
  rfl

/-! ## Numbers -/

theorem numeral_ofNat (n : Nat) : Numeral (Text.ofNat n) := by
  have hnumeral := Numeral.intro (Text.digits_ofNat n) .none .none
  rwa [List.append_nil, List.append_nil] at hnumeral

theorem rereads_nonneg {x : Number} {n : Int} (h : x.IsWhole n) (hn : 0 ≤ n) :
    Rereads (.number x) (Text.ofNat n.natAbs) [⟨.number, Text.ofNat n.natAbs, {}⟩] := by
  have htext : x.text = Text.ofNat n.natAbs := by
    rw [h.text_eq]
    cases n with
    | ofNat k => rfl
    | negSucc k => omega
  refine rereads_token (fun _ _ => congrArg pure htext)
    (fun rest => Token.spells_numeral (numeral_ofNat _)) ?_ rfl
  intro t hkind hvalue
  refine ⟨_, .number hkind, fun env => ?_⟩
  rw [hvalue, h.ofText_of_nonneg hn]
  rfl

/-- A minus sign is an operator in front of the digits. -/
theorem rereads_neg {x : Number} {n : Int} (h : x.IsWhole n) (hn : n < 0) :
    Rereads (.number x) (Byte.minus :: Text.ofNat n.natAbs)
      [.mark .minus, ⟨.number, Text.ofNat n.natAbs, {}⟩] := by
  have htext : x.text = Byte.minus :: Text.ofNat n.natAbs := by
    rw [h.text_eq]
    cases n with
    | ofNat k => exact absurd hn (Int.not_lt.mpr (Int.natCast_nonneg k))
    | negSucc k => rfl
  refine ⟨fun _ _ => congrArg pure htext, fun hrest => ?_, fun hw => ?_, rfl⟩
  · exact (Token.spells_mark .minus rfl _).append (Token.spells_numeral (numeral_ofNat _) hrest)
  · obtain ⟨minus, _, rfl, hminus, hw⟩ := List.map_eq_cons_iff.mp hw
    obtain ⟨t, rfl, ht⟩ := List.map_eq_singleton_iff.mp hw
    obtain ⟨hkind, hvalue, -⟩ := Token.mk.inj ht
    have hnumber : Expression .unary [t] _ := (Expression.number hkind).loosen (by decide)
    refine ⟨_, .negate (Token.kind_of_mark hminus) hnumber, fun env => ?_⟩
    have hneg := h.neg_ofText_of_neg hn
    rw [← hvalue] at hneg
    exact congrArg (fun y => (pure (.number y) : Eval Value)) hneg

/-! ## Arrays -/

/-- The texts and words of several values, in order. -/
abbrev RereadAll (items : List Value) (parts : List (Text × List Token)) : Prop :=
  List.Forall₂ (fun v part => v.Rereads part.1 part.2) items parts

namespace RereadAll

variable {items : List Value} {parts : List (Text × List Token)}

theorem shown (h : RereadAll items parts) (env : Env) (again : Value → Eval Text) :
    env.displayItems again items = pure (parts.map Prod.fst) := by
  induction h with
  | nil => rfl
  | cons hv _ ih =>
    rw [Env.displayItems, hv.shown, ih]
    rfl

theorem spells (h : RereadAll items parts) {rest : Text} (hrest : Calm rest) :
    Token.Spells (Text.join ", " (parts.map Prod.fst))
      (List.intercalate [.mark .comma] (parts.map Prod.snd)) rest := by
  induction h with
  | nil => exact Token.spells_nil rest
  | @cons v part items parts hv hitems ih =>
    cases hitems with
    | nil => simpa [Text.join] using hv.spells hrest
    | @cons _ part' _ parts =>
      have hcalm : Calm (", " ++ (Text.join ", " ((part' :: parts).map Prod.fst) ++ rest)) :=
        calm_append (by decide) _
      have hall := ((hv.spells hcalm).append (Token.spells_separator _)).append ih
      simpa only [Text.join, List.map_cons, List.intercalate_cons_cons] using hall

theorem spelled (h : RereadAll items parts) {w : List Token}
    (hw : w.map Token.unplaced = List.intercalate [.mark .comma] (parts.map Prod.snd)) :
    ∃ es, Row Listed (Expression .assignment) w es ∧ ∀ env : Env, env.evalAll es = pure items := by
  induction h generalizing w with
  | nil =>
    obtain rfl : w = [] := List.map_eq_nil_iff.mp hw
    exact ⟨[], ⟨[], by simp, .nil, rfl⟩, fun _ => rfl⟩
  | @cons v part items parts hv hitems ih =>
    have hcons {e : Expr} {es : List Expr} (he : ∀ env : Env, env.evalExpr e = pure v)
        (hes : ∀ env : Env, env.evalAll es = pure items) (env : Env) :
        env.evalAll (e :: es) = pure (v :: items) := by
      rw [Env.evalAll, he, hes]
      exact congrArg (· >>= fun v => pure (v :: items)) hv.resolved
    cases hitems with
    | nil =>
      rw [List.map_singleton, List.intercalate_singleton] at hw
      obtain ⟨e, hspells, he⟩ := hv.spelled hw
      refine ⟨[e], ⟨[(w, e)], ?_, .last, rfl⟩, hcons he fun _ => rfl⟩
      simpa using hspells.loosen (by decide)
    | cons hnext hitems =>
      rw [List.map_cons, List.map_cons, List.intercalate_cons_cons, List.append_assoc] at hw
      obtain ⟨w₁, _, rfl, hw₁, hw⟩ := List.map_eq_append_iff.mp hw
      obtain ⟨comma, w₂, rfl, hcomma, hw₂⟩ := List.map_eq_cons_iff.mp hw
      obtain ⟨e, hspells, he⟩ := hv.spelled hw₁
      obtain ⟨_, ⟨parts', hparts, hlisted, rfl⟩, hes⟩ := ih hw₂
      refine ⟨e :: parts'.map Prod.snd, ⟨(w₁, e) :: parts', ?_, ?_, rfl⟩, hcons he hes⟩
      · exact List.forall_mem_cons.mpr ⟨hspells.loosen (by decide), hparts⟩
      · exact .cons (Token.kind_of_mark hcomma) hlisted

end RereadAll

theorem rereads_array {items : List Value} {parts : List (Text × List Token)}
    (h : RereadAll items parts) :
    Rereads (.array items) (arrayText (parts.map Prod.fst))
      (.mark .openBracket :: List.intercalate [.mark .comma] (parts.map Prod.snd) ++
        [.mark .closeBracket]) := by
  refine ⟨fun env again => ?_, fun {rest} _ => ?_, fun {w} hw => ?_, rfl⟩
  · rw [Env.displayWith, h.shown]
    rfl
  · have hcalm : Calm ("]" ++ rest) := calm_append (by decide) rest
    exact ((Token.spells_mark .openBracket rfl _).append (h.spells hcalm)).append
      (Token.spells_mark .closeBracket rfl rest)
  · obtain ⟨opening, _, rfl, hopening, hw⟩ := List.map_eq_cons_iff.mp hw
    obtain ⟨w', _, rfl, hw', hw⟩ := List.map_eq_append_iff.mp hw
    obtain ⟨closing, rfl, hclosing⟩ := List.map_eq_singleton_iff.mp hw
    obtain ⟨_, ⟨parts', hparts, hlisted, rfl⟩, hes⟩ := h.spelled hw'
    have harray := Expression.array (Token.kind_of_mark hopening) hparts hlisted
      (Token.kind_of_mark hclosing)
    refine ⟨_, harray.loosen (by decide), fun env => ?_⟩
    rw [Env.evalExpr, hes]
    rfl

/-! ## All data -/

theorem IsData.rereads {v : Value} (h : v.IsData) : ∃ text w, v.Rereads text w := by
  induction h with
  | null => exact ⟨_, _, rereads_null⟩
  | boolean b => exact ⟨_, _, rereads_boolean b⟩
  | string s => exact ⟨_, _, rereads_string s⟩
  | @number x n h =>
    by_cases hn : 0 ≤ n
    · exact ⟨_, _, rereads_nonneg h hn⟩
    · exact ⟨_, _, rereads_neg h (by omega)⟩
  | @array items _ ih =>
    obtain ⟨parts, hparts⟩ : ∃ parts, RereadAll items parts := by
      induction items with
      | nil => exact ⟨[], .nil⟩
      | cons v items ih' =>
        obtain ⟨⟨text, w, hv⟩, hitems⟩ := List.forall_mem_cons.mp ih
        obtain ⟨parts, hparts⟩ := ih' (by simp_all) hitems
        exact ⟨(text, w) :: parts, .cons hv hparts⟩
    exact ⟨_, _, rereads_array hparts⟩

end Value

/-- The text of a value of plain data, as it is shown inside of other texts, parses to a single
expression. Wherever this is evaluated it yields the value and changes nothing. -/
theorem displayed_data_reread {v : Value} (h : v.IsData) :
    ∃ text, (∀ (env : Env) (again : Value → Eval Text) (m : Machine),
        env.displayWith again .nested v m = .done text m) ∧
      ∀ (file : Text) (source : Option Source), ∃ tokens t e,
        Token.scan file source text = .ok tokens ∧
        Program.parse tokens = .ok ⟨t, [.expr e t]⟩ ∧
        ∀ (env : Env) (m : Machine), env.evalExpr e m = .done v m := by
  obtain ⟨text, w, hv⟩ := h.rereads
  refine ⟨text, fun env again m => congrFun (hv.shown env again) m, fun file source => ?_⟩
  obtain ⟨w', last, hw', hlast, hscan⟩ := (hv.spells calm_nil).scan file source
  obtain ⟨e, hspells, hvalue⟩ := hv.spelled hw'
  obtain ⟨t, w', rfl⟩ := List.exists_cons_of_ne_nil hspells.ne_nil
  have hspells' : Expression .assignment (t :: w') e := hspells.loosen (by decide)
  have hkind : last.kind = .endOfInput := congrArg Token.kind hlast
  refine ⟨t :: w' ++ [last], t, e, hscan, ?_, fun env m => congrFun (hvalue env) m⟩
  exact Program.parse_expression hspells' hkind

/-- An array of all kinds of data, with a negative number and a string of bytes that need escapes. -/
theorem mixed_array_reread :
    let v : Value := .array [.null, .boolean true, .string [34, 10, 92, 0, 255], .number ⟨0⟩,
      .number ⟨0xC028000000000000⟩, .array [.number (.ofNat 999999999999999)], .array []]
    let text : Text := "[null, true, \"\\\"\\n\\\\" ++ ([0, 255] : Text) ++
      "\", 0, -12, [999999999999999], []]"
    v.IsData ∧ (∀ (env : Env) (again : Value → Eval Text) (m : Machine),
        env.displayWith again .nested v m = .done text m) ∧
      ∀ (file : Text) (source : Option Source), ∃ tokens t e,
        Token.scan file source text = .ok tokens ∧
        Program.parse tokens = .ok ⟨t, [.expr e t]⟩ ∧
        ∀ (env : Env) (m : Machine), env.evalExpr e m = .done v m := by
  intro v text
  have hzero : Number.IsWhole ⟨0⟩ 0 := ⟨by decide +kernel, by decide, fun _ => rfl⟩
  have hneg : Number.IsWhole ⟨0xC028000000000000⟩ (-12) :=
    ⟨by decide +kernel, by decide, by decide⟩
  have hlarge : (Number.ofNat 999999999999999).IsWhole 999999999999999 :=
    ⟨by decide +kernel, by decide, by decide⟩
  have hdata : v.IsData := by
    refine .array ?_
    simp only [List.forall_mem_cons, List.not_mem_nil, false_implies, implies_true, and_true]
    refine ⟨.null, .boolean _, .string _, .number hzero, .number hneg, .array ?_, .array (by simp)⟩
    simpa using .number hlarge
  obtain ⟨text', hshown, hread⟩ := displayed_data_reread hdata
  have htext : text' = text := by
    have hone := hshown (({} : Rules).env 0) (fun _ => pure []) {}
    simp only [v, Env.displayWith, Env.displayItems, hzero.text_eq, hneg.text_eq, hlarge.text_eq]
      at hone
    exact (Outcome.done.inj hone).1.symm
  exact ⟨hdata, htext ▸ hshown, htext ▸ hread⟩

end Script
