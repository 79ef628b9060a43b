import Script.Parser
import Script.Proofs.Grammar
import Mathlib.Data.List.TakeWhile

/-!
# The parser keeps to the grammar

What a parser reads is a word of the grammar, and what it returns is the tree of that word. One
lemma for each primitive parser says what its success means; after that every parser is taken
apart by the lemmas of the parsers it calls. Loops go by induction on the count that ends them:
the tree built so far is spelled by the tokens read so far.
-/

namespace Script

namespace Parser

open Grammar

variable {α β : Type} {tokens rest : List Token}

/-! ## What success means -/

theorem bind_ok {p : Parser α} {f : α → Parser β} {b : β} :
    (p >>= f) tokens = .ok (b, rest) ↔
      ∃ a mid, p tokens = .ok (a, mid) ∧ f a mid = .ok (b, rest) := by
  change (p tokens >>= fun r => f r.1 r.2) = _ ↔ _
  cases p tokens with
  | error _ => simp [bind, Except.bind]
  | ok r =>
    constructor
    · exact fun h => ⟨r.1, r.2, rfl, h⟩
    · rintro ⟨a, mid, hr, h⟩
      cases hr
      exact h

/-- A choice of the first step only. -/
theorem ite_bind_ok {c : Prop} [Decidable c] {p q : Parser α} {f : α → Parser β} {b : β} :
    (if c then p >>= f else q >>= f) tokens = .ok (b, rest) ↔
      ∃ a mid, (if c then p else q) tokens = .ok (a, mid) ∧ f a mid = .ok (b, rest) := by
  by_cases hc : c
  · simp only [if_pos hc, bind_ok]
  · simp only [if_neg hc, bind_ok]

theorem pure_ok {a b : α} :
    (pure a : Parser α) tokens = .ok (b, rest) ↔ a = b ∧ tokens = rest := by
  change Except.ok (a, tokens) = .ok (b, rest) ↔ _
  rw [Except.ok.injEq, Prod.mk.injEq]

theorem refuse_ok {complaint : Complaint} {a : α} :
    refuse complaint tokens = .ok (a, rest) ↔ False := by
  simp [refuse]

theorem peek_ok {t : Token} :
    peek tokens = .ok (t, rest) ↔ tokens = rest ∧ ∃ w, rest = t :: w := by
  cases tokens with
  | nil => simp [peek]; grind
  | cons => simp [peek]; grind

theorem advance_ok {t : Token} : advance tokens = .ok (t, rest) ↔ tokens = t :: rest := by
  cases tokens <;> simp [advance]

theorem advance_bind {t : Token} {f : Token → Parser α} :
    (advance >>= f) (t :: rest) = f t rest := rfl

theorem expect_ok {kind : Token.Kind} {complaint : Complaint} {t : Token} :
    expect kind complaint tokens = .ok (t, rest) ↔ tokens = t :: rest ∧ t.kind = kind := by
  simp only [expect, bind_ok, peek_ok]
  constructor
  · rintro ⟨head, mid, ⟨rfl, w, rfl⟩, h⟩
    split at h
    · obtain ⟨rfl, rfl⟩ := List.cons.inj (advance_ok.mp h)
      exact ⟨rfl, by assumption⟩
    · exact (refuse_ok.mp h).elim
  · rintro ⟨rfl, rfl⟩
    exact ⟨t, t :: rest, ⟨rfl, rest, rfl⟩, by simp [advance]⟩

theorem accept_ok {kind : Token.Kind} {b : Bool} :
    accept kind tokens = .ok (b, rest) ↔
      (b = true ∧ ∃ t, tokens = t :: rest ∧ t.kind = kind) ∨
        (b = false ∧ tokens = rest ∧ ∃ t w, rest = t :: w ∧ t.kind ≠ kind) := by
  simp only [accept, bind_ok, peek_ok]
  constructor
  · rintro ⟨head, mid, ⟨rfl, w, rfl⟩, h⟩
    split at h
    · simp only [bind_ok, advance_ok, pure_ok] at h
      grind
    · simp only [pure_ok] at h
      grind
  · rintro (⟨rfl, t, rfl, rfl⟩ | ⟨rfl, rfl, t, w, rfl, hne⟩)
    · refine ⟨t, t :: rest, ⟨rfl, rest, rfl⟩, ?_⟩
      simp only [if_true, bind_ok, advance_ok, pure_ok]
      exact ⟨t, rest, rfl, trivial, rfl⟩
    · refine ⟨t, t :: w, ⟨rfl, w, rfl⟩, ?_⟩
      simp only [hne, if_false, pure_ok, and_self]

/-- Whatever the parser takes off the front is a word of the given relation. -/
def Sound (p : Parser α) (spells : List Token → α → Prop) : Prop :=
  ∀ ⦃tokens a rest⦄, p tokens = .ok (a, rest) → ∃ w, tokens = w ++ rest ∧ spells w a

/-! ## Expressions -/

section

variable {whole : Parser Expr} (hwhole : Sound whole (Expression .assignment))
include hwhole

theorem items_sound (closing : Token.Kind) (n : Nat) :
    Sound (items whole closing n) (Row Listed (Expression .assignment)) := by
  induction n with
  | zero => exact fun _ _ _ h => (refuse_ok.mp h).elim
  | succ n ih =>
    intro tokens es rest h
    simp only [items, bind_ok, peek_ok] at h
    obtain ⟨t, mid, ⟨rfl, w, rfl⟩, h⟩ := h
    split at h
    · obtain ⟨rfl, rfl⟩ := pure_ok.mp h
      exact ⟨[], rfl, [], by simp, .nil, rfl⟩
    · simp only [bind_ok, accept_ok] at h
      obtain ⟨e, mid, he, more, mid', hmore, h⟩ := h
      obtain ⟨w, hw, hspells⟩ := hwhole he
      rcases hmore with ⟨rfl, comma, rfl, hcomma⟩ | ⟨rfl, rfl, -⟩
      · simp only [if_true, bind_ok, pure_ok] at h
        obtain ⟨es, mid, hes, rfl, rfl⟩ := h
        obtain ⟨w', rfl, parts, hparts, hw', rfl⟩ := ih hes
        refine ⟨w ++ comma :: w', by simp [hw], (w, e) :: parts, ?_, .cons hcomma hw', rfl⟩
        exact List.forall_mem_cons.mpr ⟨hspells, hparts⟩
      · simp only [Bool.false_eq_true, if_false, pure_ok] at h
        obtain ⟨rfl, rfl⟩ := h
        exact ⟨w, hw, [(w, e)], by simpa using hspells, .last, rfl⟩

theorem arguments_sound (n : Nat) {opening : Token} (hopening : opening.kind = .openParen) :
    Sound (arguments whole n) fun w args =>
      Row Arguments (Expression .assignment) (opening :: w) args := by
  intro tokens args rest h
  simp only [arguments, bind_ok, expect_ok, pure_ok] at h
  obtain ⟨args, mid, hargs, closing, mid', ⟨rfl, hclosing⟩, rfl, rfl⟩ := h
  obtain ⟨w, rfl, parts, hparts, hw, rfl⟩ := items_sound hwhole .closeParen n hargs
  exact ⟨w ++ [closing], by simp, parts, hparts, .intro hopening hw hclosing, rfl⟩

theorem primary_sound (n : Nat) : Sound (primary whole n) (Expression .primary) := by
  intro tokens e rest h
  simp only [primary, bind_ok, peek_ok] at h
  obtain ⟨t, mid, ⟨rfl, w, rfl⟩, h⟩ := h
  cases hkind : t.kind with
  | number =>
    simp only [hkind, advance_bind, pure_ok] at h
    obtain ⟨rfl, rfl⟩ := h
    exact ⟨[t], rfl, .number hkind⟩
  | string =>
    simp only [hkind, advance_bind, pure_ok] at h
    obtain ⟨rfl, rfl⟩ := h
    exact ⟨[t], rfl, .string hkind⟩
  | boolean =>
    simp only [hkind, advance_bind, pure_ok] at h
    obtain ⟨rfl, rfl⟩ := h
    exact ⟨[t], rfl, .boolean hkind⟩
  | null =>
    simp only [hkind, advance_bind, pure_ok] at h
    obtain ⟨rfl, rfl⟩ := h
    exact ⟨[t], rfl, .null hkind⟩
  | identifier =>
    simp only [hkind, advance_bind, pure_ok] at h
    obtain ⟨rfl, rfl⟩ := h
    exact ⟨[t], rfl, .ident hkind⟩
  | openBracket =>
    simp only [hkind, advance_bind, bind_ok, expect_ok, pure_ok] at h
    obtain ⟨es, mid, hes, closing, _, ⟨rfl, hclosing⟩, rfl, rfl⟩ := h
    obtain ⟨w, rfl, parts, hparts, hw, rfl⟩ := items_sound hwhole _ _ hes
    exact ⟨t :: w ++ [closing], by simp, .array hkind hparts hw hclosing⟩
  | openParen =>
    simp only [hkind, advance_bind, bind_ok, expect_ok, pure_ok] at h
    obtain ⟨e, mid, he, closing, _, ⟨rfl, hclosing⟩, rfl, rfl⟩ := h
    obtain ⟨w, rfl, hw⟩ := hwhole he
    exact ⟨t :: w ++ [closing], by simp, .group hkind hw hclosing⟩
  | newWord =>
    simp only [hkind, advance_bind, bind_ok, expect_ok, pure_ok] at h
    obtain ⟨name, _, ⟨rfl, hname⟩, opening, _, ⟨rfl, hopening⟩, args, mid, hargs, rfl, rfl⟩ := h
    obtain ⟨w, rfl, parts, hparts, hw, rfl⟩ := arguments_sound hwhole _ hopening hargs
    exact ⟨t :: name :: opening :: w, by simp, .construct hkind hname hparts hw⟩
  | _ =>
    simp only [hkind] at h
    exact (refuse_ok.mp h).elim

/-- After the name of a member no call can follow: the parser has seen that the next token is no
parenthesis. -/
theorem suffixes_sound (n : Nat) {w : List Token} {e e' : Expr} (he : Expression .operand w e)
    (hcall : Expression .callable w e ∨ ∀ t ∈ tokens.head?, t.kind ≠ .openParen)
    (h : suffixes whole n e tokens = .ok (e', rest)) :
    ∃ w', tokens = w' ++ rest ∧ Expression .operand (w ++ w') e' := by
  induction n generalizing tokens w e with
  | zero => exact (refuse_ok.mp h).elim
  | succ n ih =>
    simp only [suffixes, bind_ok, peek_ok] at h
    obtain ⟨t, mid, ⟨rfl, v, rfl⟩, h⟩ := h
    cases hkind : t.kind with
    | openParen =>
      simp only [hkind, advance_bind, bind_ok] at h
      obtain ⟨args, mid, hargs, h⟩ := h
      obtain ⟨v, rfl, parts, hparts, hv, rfl⟩ := arguments_sound hwhole _ hkind hargs
      have hcallee : Expression .callable w e := hcall.resolve_right (by simp [hkind])
      have hnext := Expression.call hcallee hparts hv
      obtain ⟨w', rfl, hw'⟩ := ih (.inner hnext) (.inl hnext) h
      exact ⟨t :: v ++ w', by simp, by simpa using hw'⟩
    | dot =>
      simp only [hkind, advance_bind, bind_ok, expect_ok, accept_ok] at h
      obtain ⟨name, _, ⟨rfl, hname⟩, called, mid, hcalled, h⟩ := h
      rcases hcalled with ⟨rfl, opening, rfl, hopening⟩ | ⟨rfl, rfl, next, v, rfl, hnext⟩
      · simp only [if_true, bind_ok] at h
        obtain ⟨args, mid, hargs, h⟩ := h
        obtain ⟨v, rfl, parts, hparts, hv, rfl⟩ := arguments_sound hwhole _ hopening hargs
        have hmethod := Expression.method he hkind hname hparts hv
        obtain ⟨w', rfl, hw'⟩ := ih (.inner hmethod) (.inl hmethod) h
        exact ⟨t :: name :: opening :: v ++ w', by simp, by simpa using hw'⟩
      · simp only [Bool.false_eq_true, if_false] at h
        have hmember := Expression.member he hkind hname
        obtain ⟨w', hw, hw'⟩ := ih hmember (.inr (by simpa using hnext)) h
        exact ⟨t :: name :: w', by simp [hw], by simpa using hw'⟩
    | openBracket =>
      simp only [hkind, advance_bind, bind_ok, expect_ok] at h
      obtain ⟨position, mid, hposition, closing, _, ⟨rfl, hclosing⟩, h⟩ := h
      obtain ⟨v, rfl, hv⟩ := hwhole hposition
      have hindex := Expression.index he hkind hv hclosing
      obtain ⟨w', rfl, hw'⟩ := ih (.inner hindex) (.inl hindex) h
      exact ⟨t :: v ++ closing :: w', by simp, by simpa using hw'⟩
    | _ =>
      simp only [hkind, pure_ok] at h
      obtain ⟨rfl, rfl⟩ := h
      exact ⟨[], rfl, by simpa using he⟩

theorem operand_sound (n : Nat) : Sound (operand whole n) (Expression .operand) := by
  intro tokens e rest h
  simp only [operand, bind_ok] at h
  obtain ⟨first, mid, hfirst, h⟩ := h
  obtain ⟨w, rfl, hw⟩ := primary_sound hwhole n hfirst
  have hcallable : Expression .callable w first := .inner hw
  obtain ⟨w', rfl, hw'⟩ := suffixes_sound hwhole n (.inner hcallable) (.inl hcallable) h
  exact ⟨w ++ w', by simp, hw'⟩

theorem unary_sound (n m : Nat) : Sound (unary whole n m) (Expression .unary) := by
  induction m with
  | zero => exact fun _ _ _ h => (refuse_ok.mp h).elim
  | succ m ih =>
    intro tokens e rest h
    simp only [unary, bind_ok, peek_ok] at h
    obtain ⟨t, mid, ⟨rfl, w, rfl⟩, h⟩ := h
    split at h
    next hkind =>
      simp only [advance_bind, bind_ok, pure_ok] at h
      obtain ⟨e, mid, he, rfl, rfl⟩ := h
      obtain ⟨w, rfl, hw⟩ := ih he
      exact ⟨t :: w, rfl, .negate hkind hw⟩
    next =>
      obtain ⟨w, hw, hspells⟩ := operand_sound hwhole n h
      exact ⟨w, hw, .inner hspells⟩

end

/-- The operators of a level. -/
def levelOperators : Level → Operators
  | .multiplicative => factorOperators
  | .additive => termOperators
  | .comparison => orderOperators
  | .equality => equalityOperators
  | _ => fun _ => none

theorem levelOperators_eq_some {level : Level} {kind : Token.Kind} {op : BinaryOp} :
    levelOperators level kind = some op ↔ op.kind = kind ∧ op.level = level := by
  constructor
  · intro h
    cases level <;> simp only [levelOperators, factorOperators, termOperators, orderOperators,
      equalityOperators, reduceCtorEq] at h <;> split at h <;> cases h <;> exact ⟨rfl, rfl⟩
  · rintro ⟨rfl, rfl⟩
    cases op <;> rfl

section

variable (level : Level) {part : Parser Expr} (hpart : Sound part (Expression level.inner))
include hpart

theorem chain_sound (n : Nat) {w : List Token} {left e : Expr} (hleft : Expression level w left)
    (h : chain (levelOperators level) part n left tokens = .ok (e, rest)) :
    ∃ w', tokens = w' ++ rest ∧ Expression level (w ++ w') e := by
  induction n generalizing tokens w left with
  | zero => exact (refuse_ok.mp h).elim
  | succ n ih =>
    simp only [chain, bind_ok, peek_ok] at h
    obtain ⟨t, mid, ⟨rfl, v, rfl⟩, h⟩ := h
    cases hop : levelOperators level t.kind with
    | none =>
      simp only [hop, pure_ok] at h
      obtain ⟨rfl, rfl⟩ := h
      exact ⟨[], rfl, by simpa using hleft⟩
    | some op =>
      simp only [hop, advance_bind, bind_ok] at h
      obtain ⟨right, mid, hright, h⟩ := h
      obtain ⟨v, rfl, hv⟩ := hpart hright
      obtain ⟨hkind, hlevel⟩ := levelOperators_eq_some.mp hop
      obtain ⟨w', rfl, hw'⟩ := ih (.binary hlevel hleft hkind.symm hv) h
      exact ⟨t :: v ++ w', by simp, by simpa using hw'⟩

theorem joined_sound (n : Nat) :
    Sound (joined (levelOperators level) part n) (Expression level) := by
  intro tokens e rest h
  simp only [joined, bind_ok] at h
  obtain ⟨left, mid, hleft, h⟩ := h
  obtain ⟨w, rfl, hw⟩ := hpart hleft
  obtain ⟨w', rfl, hw'⟩ := chain_sound level hpart n (.inner hw) h
  exact ⟨w ++ w', by simp, hw'⟩

end

theorem equality_sound {whole : Parser Expr} (hwhole : Sound whole (Expression .assignment))
    (n : Nat) : Sound (equality whole n) (Expression .equality) := by
  have hunary := unary_sound hwhole n n
  have hfactors := joined_sound .multiplicative hunary n
  have hterms := joined_sound .additive hfactors n
  have horders := joined_sound .comparison hterms n
  exact joined_sound .equality horders n

theorem assignment_sound {whole : Parser Expr} (hwhole : Sound whole (Expression .assignment))
    (n : Nat) : Sound (assignment whole n) (Expression .assignment) := by
  intro tokens e rest h
  simp only [assignment, bind_ok, peek_ok] at h
  obtain ⟨left, mid, hleft, t, mid', ⟨rfl, v, rfl⟩, h⟩ := h
  obtain ⟨w, rfl, hw⟩ := equality_sound hwhole n hleft
  split at h
  next hkind =>
    split at h
    next htarget =>
      simp only [advance_bind, bind_ok, pure_ok] at h
      obtain ⟨value, mid, hvalue, rfl, rfl⟩ := h
      obtain ⟨w', rfl, hw'⟩ := hwhole hvalue
      exact ⟨w ++ t :: w', by simp, .assign hw htarget hkind hw'⟩
    next => exact (refuse_ok.mp h).elim
  next =>
    obtain ⟨rfl, rfl⟩ := pure_ok.mp h
    exact ⟨w, rfl, .inner hw⟩

theorem expression_sound (n : Nat) : Sound (expression n) (Expression .assignment) := by
  induction n with
  | zero => exact fun _ _ _ h => (refuse_ok.mp h).elim
  | succ n ih => exact assignment_sound ih n

/-! ## Statements -/

theorem skipSemicolons_sound :
    Sound skipSemicolons fun w _ => ∀ t ∈ w, t.kind = .semicolon := by
  intro tokens _ rest h
  simp only [skipSemicolons, Except.ok.injEq, Prod.mk.injEq, true_and] at h
  refine ⟨tokens.takeWhile (·.kind == .semicolon), ?_, ?_⟩
  · rw [← h, List.takeWhile_append_dropWhile]
  · intro t ht
    simpa using List.mem_takeWhile_imp ht

theorem ending_sound : Sound (accept .semicolon) fun w _ => Ending w := by
  intro tokens found rest h
  rcases accept_ok.mp h with ⟨-, t, rfl, ht⟩ | ⟨-, rfl, -⟩
  · exact ⟨[t], rfl, .semicolon ht⟩
  · exact ⟨[], rfl, .none⟩

theorem parameters_sound (function : Text) (n : Nat) {seen names : List Text}
    (hseen : seen.Nodup) (h : parameters function n seen tokens = .ok (names, rest)) :
    ∃ w new, tokens = w ++ rest ∧ Names w new ∧ names = seen ++ new ∧ names.Nodup := by
  induction n generalizing tokens seen with
  | zero => exact (refuse_ok.mp h).elim
  | succ n ih =>
    simp only [parameters, bind_ok, peek_ok] at h
    obtain ⟨t, mid, ⟨rfl, v, rfl⟩, h⟩ := h
    split at h
    next => exact (refuse_ok.mp h).elim
    next hname =>
      rw [not_not] at hname
      split at h
      next => exact (refuse_ok.mp h).elim
      next hfresh =>
        have hnodup : (seen ++ [t.value]).Nodup := by
          simpa [List.nodup_append] using ⟨hseen, fun a ha h => hfresh (h ▸ ha)⟩
        simp only [advance_bind, bind_ok, accept_ok] at h
        obtain ⟨more, mid, hmore, h⟩ := h
        rcases hmore with ⟨rfl, comma, rfl, hcomma⟩ | ⟨rfl, rfl, -⟩
        · simp only [if_true] at h
          obtain ⟨w, new, rfl, hw, rfl, hnames⟩ := ih hnodup h
          exact ⟨t :: comma :: w, t.value :: new, rfl, .cons hname hcomma hw, by simp, hnames⟩
        · simp only [Bool.false_eq_true, if_false, pure_ok] at h
          obtain ⟨rfl, rfl⟩ := h
          exact ⟨[t], [t.value], rfl, .last hname, rfl, hnodup⟩

section

variable {stmt : Parser Stmt} (hstmt : Sound stmt (Statement Ending .statement))
include hstmt

theorem statements_sound (n : Nat) :
    Sound (statements stmt n) (Row Sequence (Statement Ending .statement)) := by
  induction n with
  | zero => exact fun _ _ _ h => (refuse_ok.mp h).elim
  | succ n ih =>
    intro tokens body rest h
    simp only [statements, bind_ok, peek_ok] at h
    obtain ⟨_, mid, hskip, t, _, ⟨rfl, v, rfl⟩, h⟩ := h
    obtain ⟨w, rfl, hw⟩ := skipSemicolons_sound hskip
    split at h
    next =>
      obtain ⟨rfl, rfl⟩ := pure_ok.mp h
      exact ⟨w, rfl, row_nil hw⟩
    next =>
      simp only [bind_ok, pure_ok] at h
      obtain ⟨s, mid, hs, body, _, hbody, rfl, rfl⟩ := h
      obtain ⟨w', hw', hspells⟩ := hstmt hs
      obtain ⟨w'', rfl, hrow⟩ := ih hbody
      exact ⟨w ++ (w' ++ w''), by simp [hw'], row_cons hw hspells hrow⟩

theorem block_sound (n : Nat) :
    Sound (block stmt n) (Row Block (Statement Ending .statement)) := by
  intro tokens body rest h
  simp only [block, bind_ok, expect_ok, pure_ok] at h
  obtain ⟨opening, _, ⟨rfl, hopening⟩, body, _, hbody, closing, _, ⟨rfl, hclosing⟩, rfl, rfl⟩ := h
  obtain ⟨w, rfl, parts, hparts, hw, rfl⟩ := statements_sound hstmt n hbody
  exact ⟨opening :: w ++ [closing], by simp, parts, hparts, .intro hopening hw hclosing, rfl⟩

theorem function_sound (n : Nat) {word : Token} (hword : word.kind = .funcWord) :
    Sound (function stmt n) fun w s => Statement Ending .function (word :: w) s := by
  intro tokens s rest h
  simp only [function, bind_ok, ite_bind_ok, expect_ok, peek_ok, pure_ok] at h
  obtain ⟨name, _, ⟨rfl, hname⟩, opening, _, ⟨rfl, hopening⟩, t, _, ⟨rfl, v, rfl⟩, params, _,
    hparams, closing, mid, ⟨rfl, hclosing⟩, body, _, hbody, rfl, rfl⟩ := h
  have hparams : ∃ w, t :: v = w ++ closing :: mid ∧ Parameters w params := by
    split at hparams
    next =>
      obtain ⟨rfl, hv⟩ := pure_ok.mp hparams
      exact ⟨[], hv, .none⟩
    next =>
      obtain ⟨w, names, hv, hw, rfl, hnodup⟩ := parameters_sound _ n List.nodup_nil hparams
      exact ⟨w, hv, .some hw hnodup⟩
  obtain ⟨w, hv, hw⟩ := hparams
  obtain ⟨w', rfl, parts, hparts, hw', rfl⟩ := block_sound hstmt n hbody
  refine ⟨name :: opening :: w ++ closing :: w', by simp [hv], ?_⟩
  exact .function hword hname hopening hw hclosing hparts hw'

theorem members_sound (n m : Nat) :
    Sound (members stmt n m) (Row Sequence (Statement Ending .function)) := by
  induction m with
  | zero => exact fun _ _ _ h => (refuse_ok.mp h).elim
  | succ m ih =>
    intro tokens body rest h
    simp only [members, bind_ok, peek_ok] at h
    obtain ⟨_, mid, hskip, t, _, ⟨rfl, v, rfl⟩, h⟩ := h
    obtain ⟨w, rfl, hw⟩ := skipSemicolons_sound hskip
    split at h
    next =>
      obtain ⟨rfl, rfl⟩ := pure_ok.mp h
      exact ⟨w, rfl, row_nil hw⟩
    next =>
      split at h
      next hkind =>
        simp only [advance_bind, bind_ok, pure_ok] at h
        obtain ⟨s, mid, hs, body, _, hbody, rfl, rfl⟩ := h
        obtain ⟨w', rfl, hspells⟩ := function_sound hstmt n hkind hs
        obtain ⟨w'', rfl, hrow⟩ := ih hbody
        exact ⟨w ++ (t :: w' ++ w''), by simp, row_cons hw hspells hrow⟩
      next => exact (refuse_ok.mp h).elim

theorem classDefinition_sound (n : Nat) {word : Token} (hword : word.kind = .classWord) :
    Sound (classDefinition stmt n) fun w s => Statement Ending .statement (word :: w) s := by
  intro tokens s rest h
  simp only [classDefinition, bind_ok, expect_ok, pure_ok] at h
  obtain ⟨name, _, ⟨rfl, hname⟩, opening, _, ⟨rfl, hopening⟩, body, _, hbody, closing, _,
    ⟨rfl, hclosing⟩, rfl, rfl⟩ := h
  obtain ⟨w, rfl, parts, hparts, hw, rfl⟩ := members_sound hstmt n n hbody
  refine ⟨name :: opening :: w ++ [closing], by simp, ?_⟩
  exact .classDef hword hname hopening hparts hw hclosing

variable {expr : Parser Expr} (hexpr : Sound expr (Expression .assignment))
include hexpr

omit hstmt in
theorem optional_sound {c : Prop} [Decidable c] :
    Sound (if c then pure .hole else expr) Optional := by
  intro tokens e rest h
  split at h
  next =>
    obtain ⟨rfl, rfl⟩ := pure_ok.mp h
    exact ⟨[], rfl, .none⟩
  next =>
    obtain ⟨w, rfl, hw⟩ := hexpr h
    exact ⟨w, rfl, .some hw⟩

omit hstmt in
theorem returned_sound {word : Token} (hword : word.kind = .returnWord) :
    Sound (returned expr word) fun w s => Statement Ending .statement (word :: w) s := by
  intro tokens s rest h
  simp only [returned, bind_ok, ite_bind_ok, peek_ok, pure_ok] at h
  obtain ⟨t, _, ⟨rfl, v, rfl⟩, value, mid, hvalue, found, _, hfound, rfl, rfl⟩ := h
  obtain ⟨w, hv, hw⟩ := optional_sound hexpr hvalue
  obtain ⟨w', rfl, hw'⟩ := ending_sound hfound
  exact ⟨w ++ w', by simp [hv], .ret hword hw hw'⟩

/-- A condition is read the same way whatever word announces it. -/
theorem conditional_sound (n m : Nat) :
    Sound (conditional expr stmt n m) fun w s =>
      ∃ t v, w = t :: v ∧ Statement Ending (.conditional t.kind) w s := by
  induction m with
  | zero => exact fun _ _ _ h => (refuse_ok.mp h).elim
  | succ m ih =>
    intro tokens s rest h
    simp only [conditional, bind_ok, advance_ok, peek_ok] at h
    obtain ⟨t, _, rfl, condition, _, hcondition, body, _, hbody, next, _, ⟨rfl, v, rfl⟩, h⟩ := h
    obtain ⟨w, rfl, hw⟩ := hexpr hcondition
    obtain ⟨w', rfl, parts, hparts, hw', rfl⟩ := block_sound hstmt n hbody
    cases hkind : next.kind with
    | elseifWord =>
      simp only [hkind, bind_ok, pure_ok] at h
      obtain ⟨s, _, hs, rfl, rfl⟩ := h
      obtain ⟨_, hv, t', w'', rfl, hspells⟩ := ih hs
      obtain ⟨rfl, rfl⟩ := List.cons.inj hv
      rw [hkind] at hspells
      refine ⟨t :: w ++ w' ++ next :: w'', by simp, t, _, rfl, ?_⟩
      exact .elseif rfl hw hparts hw' hspells
    | elseWord =>
      simp only [hkind, advance_bind, bind_ok, peek_ok] at h
      obtain ⟨t', _, ⟨rfl, v, rfl⟩, h⟩ := h
      split at h
      next hif =>
        simp only [bind_ok, pure_ok] at h
        obtain ⟨s, _, hs, rfl, rfl⟩ := h
        obtain ⟨_, hv, t'', w'', rfl, hspells⟩ := ih hs
        obtain ⟨rfl, rfl⟩ := List.cons.inj hv
        rw [hif] at hspells
        refine ⟨t :: w ++ w' ++ next :: t' :: w'', by simp, t, _, rfl, ?_⟩
        exact .elseIf rfl hw hparts hw' hkind hspells
      next =>
        simp only [bind_ok, pure_ok] at h
        obtain ⟨others, _, hothers, rfl, rfl⟩ := h
        obtain ⟨w'', hv, parts', hparts', hw'', rfl⟩ := block_sound hstmt n hothers
        refine ⟨t :: w ++ w' ++ next :: w'', by simp [hv], t, _, rfl, ?_⟩
        exact .otherwise rfl hw hparts hw' hkind hparts' hw''
    | _ =>
      simp only [hkind, pure_ok] at h
      obtain ⟨rfl, rfl⟩ := h
      exact ⟨t :: w ++ w', by simp, t, _, rfl, .single rfl hw hparts hw'⟩

theorem whileLoop_sound (n : Nat) {word : Token} (hword : word.kind = .whileWord) :
    Sound (whileLoop expr stmt n word) fun w s => Statement Ending .statement (word :: w) s := by
  intro tokens s rest h
  simp only [whileLoop, bind_ok, pure_ok] at h
  obtain ⟨condition, _, hcondition, body, _, hbody, rfl, rfl⟩ := h
  obtain ⟨w, rfl, hw⟩ := hexpr hcondition
  obtain ⟨w', rfl, parts, hparts, hw', rfl⟩ := block_sound hstmt n hbody
  exact ⟨w ++ w', by simp, .whileLoop hword hw hparts hw'⟩

omit hstmt in
theorem initializer_sound : Sound (initializer expr) Initializer := by
  intro tokens s rest h
  simp only [initializer, bind_ok, peek_ok] at h
  obtain ⟨t, _, ⟨rfl, v, rfl⟩, h⟩ := h
  split at h
  next =>
    obtain ⟨rfl, rfl⟩ := pure_ok.mp h
    exact ⟨[], rfl, .none⟩
  next =>
    simp only [bind_ok, pure_ok] at h
    obtain ⟨e, _, he, rfl, rfl⟩ := h
    obtain ⟨w, hv, hw⟩ := hexpr he
    obtain ⟨t', w, rfl⟩ := List.exists_cons_of_ne_nil hw.ne_nil
    obtain ⟨rfl, rfl⟩ := List.cons.inj hv
    exact ⟨t :: w, rfl, .some hw⟩

theorem forLoop_sound (n : Nat) {word : Token} (hword : word.kind = .forWord) :
    Sound (forLoop expr stmt n word) fun w s => Statement Ending .statement (word :: w) s := by
  intro tokens s rest h
  simp only [forLoop, bind_ok, ite_bind_ok, expect_ok, peek_ok, pure_ok] at h
  obtain ⟨opening, _, ⟨rfl, hopening⟩, init, _, hinit, first, _, ⟨rfl, hfirst⟩, t, _,
    ⟨rfl, v, rfl⟩, condition, _, hcondition, second, _, ⟨rfl, hsecond⟩, t', _, ⟨rfl, v', rfl⟩,
    post, _, hpost, closing, mid, ⟨rfl, hclosing⟩, body, _, hbody, rfl, rfl⟩ := h
  split at hcondition
  next => exact (refuse_ok.mp hcondition).elim
  next =>
    obtain ⟨w, rfl, hw⟩ := initializer_sound hexpr hinit
    obtain ⟨w', hv, hw'⟩ := hexpr hcondition
    obtain ⟨w'', hv', hw''⟩ := optional_sound hexpr hpost
    obtain ⟨v, rfl, parts, hparts, hblock, rfl⟩ := block_sound hstmt n hbody
    refine ⟨opening :: w ++ first :: w' ++ second :: w'' ++ closing :: v, by simp [hv, hv'], ?_⟩
    exact .forLoop hword hopening hw hfirst hw' hsecond hw'' hclosing hparts hblock

omit hstmt in
theorem expressionStatement_sound {t : Token} {v : List Token} {s : Stmt}
    (h : expressionStatement expr t (t :: v) = .ok (s, rest)) :
    ∃ w, t :: v = w ++ rest ∧ Statement Ending .statement w s := by
  simp only [expressionStatement, bind_ok, pure_ok] at h
  obtain ⟨e, _, he, found, _, hfound, rfl, rfl⟩ := h
  obtain ⟨w, hv, hw⟩ := hexpr he
  obtain ⟨w', rfl, hw'⟩ := ending_sound hfound
  obtain ⟨t', w, rfl⟩ := List.exists_cons_of_ne_nil hw.ne_nil
  obtain ⟨rfl, rfl⟩ := List.cons.inj hv
  exact ⟨t :: w ++ w', by simp, .expr hw hw'⟩

theorem statementWith_sound (n : Nat) :
    Sound (statementWith expr stmt n) (Statement Ending .statement) := by
  intro tokens s rest h
  simp only [statementWith, bind_ok, peek_ok] at h
  obtain ⟨t, _, ⟨rfl, v, rfl⟩, h⟩ := h
  cases hkind : t.kind with
  | funcWord =>
    simp only [hkind, advance_bind] at h
    obtain ⟨w, rfl, hw⟩ := function_sound hstmt n hkind h
    exact ⟨t :: w, rfl, .func hw⟩
  | classWord =>
    simp only [hkind, advance_bind] at h
    obtain ⟨w, rfl, hw⟩ := classDefinition_sound hstmt n hkind h
    exact ⟨t :: w, rfl, hw⟩
  | returnWord =>
    simp only [hkind, advance_bind] at h
    obtain ⟨w, rfl, hw⟩ := returned_sound hexpr hkind h
    exact ⟨t :: w, rfl, hw⟩
  | ifWord =>
    simp only [hkind] at h
    obtain ⟨_, hv, t', w, rfl, hw⟩ := conditional_sound hstmt hexpr n n h
    obtain ⟨rfl, rfl⟩ := List.cons.inj hv
    rw [hkind] at hw
    exact ⟨t :: w, rfl, .branch hw⟩
  | whileWord =>
    simp only [hkind, advance_bind] at h
    obtain ⟨w, rfl, hw⟩ := whileLoop_sound hstmt hexpr n hkind h
    exact ⟨t :: w, rfl, hw⟩
  | forWord =>
    simp only [hkind, advance_bind] at h
    obtain ⟨w, rfl, hw⟩ := forLoop_sound hstmt hexpr n hkind h
    exact ⟨t :: w, rfl, hw⟩
  | closeBrace =>
    simp only [hkind] at h
    exact (refuse_ok.mp h).elim
  | endOfInput =>
    simp only [hkind] at h
    exact (refuse_ok.mp h).elim
  | _ =>
    simp only [hkind] at h
    exact expressionStatement_sound hexpr h

end

theorem statement_sound (n : Nat) : Sound (statement n) (Statement Ending .statement) := by
  induction n with
  | zero => exact fun _ _ _ h => (refuse_ok.mp h).elim
  | succ n ih => exact statementWith_sound ih (expression_sound (n + 1)) n

/-- A program ends where the input does. -/
theorem program_sound {stmt : Parser Stmt} (hstmt : Sound stmt (Statement Ending .statement))
    (n : Nat) {body : List Stmt} (h : program stmt n tokens = .ok (body, rest)) :
    ∃ w, tokens = w ++ rest ∧ Body Ending w body ∧ ∃ t v, rest = t :: v ∧ t.kind = .endOfInput := by
  induction n generalizing tokens body with
  | zero => exact (refuse_ok.mp h).elim
  | succ n ih =>
    simp only [program, bind_ok, peek_ok] at h
    obtain ⟨_, mid, hskip, t, _, ⟨rfl, v, rfl⟩, h⟩ := h
    obtain ⟨w, rfl, hw⟩ := skipSemicolons_sound hskip
    split at h
    next hkind =>
      obtain ⟨rfl, rfl⟩ := pure_ok.mp h
      exact ⟨w, rfl, row_nil hw, t, v, rfl, hkind⟩
    next =>
      simp only [bind_ok, pure_ok] at h
      obtain ⟨s, mid, hs, body, _, hbody, rfl, rfl⟩ := h
      obtain ⟨w', hw', hspells⟩ := hstmt hs
      obtain ⟨w'', rfl, hrow, hrest⟩ := ih hbody
      exact ⟨w ++ (w' ++ w''), by simp [hw'], row_cons hw hspells hrow, hrest⟩

end Parser

theorem Program.continued_of_ended {tokens : List Token} {t : Token}
    (hlast : tokens.getLast? = some t) (ht : t.kind = .endOfInput) :
    Program.continued tokens = tokens := by
  simp [Program.continued, hlast, ht]

/-- The body of a program is spelled before the first token for the end of the input. -/
theorem Program.body_of_parse {tokens : List Token} {last : Token} {program : Program}
    (hlast : tokens.getLast? = some last) (hend : last.kind = .endOfInput)
    (h : Program.parse tokens = .ok program) :
    program.token = tokens.headD {} ∧ ∃ w t rest, tokens = w ++ t :: rest ∧
      t.kind = .endOfInput ∧ Grammar.Body Grammar.Ending w program.body := by
  simp only [Program.parse, Program.continued_of_ended hlast hend] at h
  split at h
  next body rest hparse =>
    cases h
    obtain ⟨w, hw, hbody, t, v, rfl, ht⟩ :=
      Parser.program_sound (Parser.statement_sound _) _ hparse
    exact ⟨rfl, w, t, v, hw, ht, hbody⟩
  next => cases h

/-- A token list that parses is a word of the grammar up to the first token for the end of the
input, and the body of the program is a tree of that word. -/
theorem parsed_body_spelled {tokens : List Token} {last : Token} {program : Program}
    (hlast : tokens.getLast? = some last) (hend : last.kind = .endOfInput)
    (h : Program.parse tokens = .ok program) :
    program.token = tokens.headD {} ∧
      Grammar.Body Grammar.Ending (tokens.takeWhile (·.kind ≠ .endOfInput)) program.body := by
  obtain ⟨htoken, w, t, rest, rfl, ht, hbody⟩ := Program.body_of_parse hlast hend h
  have hinside : ∀ t ∈ w, decide (t.kind ≠ .endOfInput) = true := by
    simpa [Grammar.Inside] using hbody.inside fun _ => Grammar.Ending.inside
  have hword : (w ++ t :: rest).takeWhile (·.kind ≠ .endOfInput) = w := by
    rw [List.takeWhile_append_of_pos hinside, List.takeWhile_cons_of_neg (by simp [ht]),
      List.append_nil]
  rw [hword]
  exact ⟨htoken, hbody⟩

/-- Two conditions after a first one, announced by `elseif` and by `else if`, nest as the only
statements of the branches before them; in the last, `x = -null * null - null` groups to the left
below the assignment. -/
theorem nested_conditions_spelled :
    let t (kind : Token.Kind) : Token := { kind }
    let x := Expr.ident [] (t .identifier)
    let tokens := [.ifWord, .identifier, .openBrace, .closeBrace, .elseifWord, .identifier,
      .openBrace, .closeBrace, .elseWord, .ifWord, .identifier, .openBrace, .identifier, .assign,
      .minus, .null, .star, .null, .minus, .null, .semicolon, .closeBrace, .semicolon,
      .endOfInput].map t
    let product := Expr.binary .multiply (.negate (.null (t .null)) (t .minus)) (.null (t .null))
      (t .star)
    let difference := Expr.binary .subtract product (.null (t .null)) (t .minus)
    let body := [Stmt.branch x [] true [.branch x [] true [.branch x
      [.expr (.assign x difference (t .assign)) (t .identifier)] false [] (t .ifWord)]
      (t .elseifWord)] (t .ifWord)]
    Program.parse tokens = .ok ⟨t .ifWord, body⟩ ∧
      Grammar.Body Grammar.Ending (tokens.take 23) body := by
  intro t x tokens product difference body
  have h : Program.parse tokens = .ok ⟨t .ifWord, body⟩ := rfl
  exact ⟨h, (parsed_body_spelled rfl rfl h).2⟩

end Script
