import Script.Syntax.MapTokens
import Script.Proofs.Grammar.Completeness
import Script.Proofs.Printing.Text

/-!
# The word of a printed expression

The tokens that the text of an expression shows spell the expression again, wherever they are
placed. Operators and assignments stand in parentheses there, so all that is left to the levels of
precedence is the row of calls, accesses and indexes after an operand. In that row one thing can
go wrong: a call of a member shows the same tokens as a call of a method. `Expr.tightness` keeps
the two apart.
-/

namespace Script

open Grammar Lexeme

namespace Token

theorem kind_of_unplaced {t t' : Token} (h : t.unplaced = t'.unplaced) : t.kind = t'.kind :=
  (Token.mk.inj h).1

theorem value_of_unplaced {t t' : Token} (h : t.unplaced = t'.unplaced) : t.value = t'.value :=
  (Token.mk.inj h).2.1

theorem kind_of_mark {t : Token} {kind : Kind} (h : t.unplaced = mark kind) : t.kind = kind :=
  (Token.mk.inj h).1

end Token

namespace Expr

-- The equations are made here, once for all the lemmas below.
attribute [local simp] mapTokens mapTokensAll

/-- The expressions differ in the places of their tokens at most. -/
def Alike (e e' : Expr) : Prop :=
  e.mapTokens Token.unplaced = e'.mapTokens Token.unplaced

theorem Alike.isTarget {e e' : Expr} (h : e.Alike e') : e.isTarget = e'.isTarget := by
  have hmap (e : Expr) : (e.mapTokens Token.unplaced).isTarget = e.isTarget := by
    cases e <;> rfl
  rw [← hmap e, ← hmap e', h]

theorem Alike.token {e e' : Expr} (h : e.Alike e') : e.token.unplaced = e'.token.unplaced := by
  have hmap (e : Expr) : (e.mapTokens Token.unplaced).token = e.token.unplaced := by
    cases e <;> rfl
  rw [← hmap e, ← hmap e', h]

/-- The level at which the word of an expression spells it. -/
def tightness : Expr → Level
  | .member .. => .operand
  | _ => .callable

/-- Whatever tokens show the word of the expression spell it. -/
def Respelled (e : Expr) : Prop :=
  ∀ w, w.map Token.unplaced = e.word → ∃ e', Expression e.tightness w e' ∧ e'.Alike e

theorem Respelled.spells {e : Expr} (h : e.Respelled) {w : List Token}
    (hw : w.map Token.unplaced = e.word) (level : Level)
    (hlevel : level.rank ≤ Level.operand.rank) : ∃ e', Expression level w e' ∧ e'.Alike e := by
  obtain ⟨e', hspells, halike⟩ := h w hw
  have hrank : level.rank ≤ e.tightness.rank :=
    hlevel.trans (by cases e <;> simp [tightness, Level.rank])
  exact ⟨e', hspells.loosen hrank, halike⟩

/-! ### Lists -/

theorem respelled_items {es : List Expr} (h : ∀ e ∈ es, e.Respelled) {w : List Token}
    (hw : w.map Token.unplaced = List.intercalate [.mark .comma] (words es)) :
    ∃ es', Row Listed (Expression .assignment) w es' ∧
      mapTokensAll Token.unplaced es' = mapTokensAll Token.unplaced es := by
  induction es generalizing w with
  | nil =>
    obtain rfl : w = [] := List.map_eq_nil_iff.mp hw
    exact ⟨[], ⟨[], by simp, .nil, rfl⟩, rfl⟩
  | cons e es ih =>
    obtain ⟨he, hes⟩ := List.forall_mem_cons.mp h
    cases es with
    | nil =>
      rw [words, words, List.intercalate_singleton] at hw
      obtain ⟨e', hspells, halike⟩ := he.spells hw .assignment (by decide)
      exact ⟨[e'], ⟨[(w, e')], by simpa using hspells, .last, rfl⟩, congrArg (fun e => [e]) halike⟩
    | cons next es =>
      rw [words, words, List.intercalate_cons_cons, List.append_assoc] at hw
      obtain ⟨v, w', rfl, hv, hw'⟩ := List.map_eq_append_iff.mp hw
      obtain ⟨comma, w', rfl, hcomma, hw'⟩ := List.map_eq_cons_iff.mp hw'
      obtain ⟨e', hspells, halike⟩ := he.spells hv .assignment (by decide)
      obtain ⟨_, ⟨parts, hparts, hlisted, rfl⟩, hes'⟩ := ih hes hw'
      refine ⟨e' :: parts.map Prod.snd, ⟨(v, e') :: parts, ?_, ?_, rfl⟩, ?_⟩
      · exact List.forall_mem_cons.mpr ⟨hspells, hparts⟩
      · exact .cons (Token.kind_of_mark hcomma) hlisted
      · rw [mapTokensAll, mapTokensAll, hes']
        exact congrArg (· :: _) halike

theorem respelled_arguments {es : List Expr} (h : ∀ e ∈ es, e.Respelled) {w : List Token}
    (hw : w.map Token.unplaced = .mark .openParen ::
      (List.intercalate [.mark .comma] (words es) ++ [.mark .closeParen])) :
    ∃ es', Row Arguments (Expression .assignment) w es' ∧
      mapTokensAll Token.unplaced es' = mapTokensAll Token.unplaced es := by
  obtain ⟨opening, _, rfl, hopening, hw⟩ := List.map_eq_cons_iff.mp hw
  obtain ⟨v, _, rfl, hv, hw⟩ := List.map_eq_append_iff.mp hw
  obtain ⟨closing, rfl, hclosing⟩ := List.map_eq_singleton_iff.mp hw
  obtain ⟨_, ⟨parts, hparts, hlisted, rfl⟩, hes⟩ := respelled_items h hv
  refine ⟨parts.map Prod.snd, ⟨parts, hparts, ?_, rfl⟩, hes⟩
  exact .intro (Token.kind_of_mark hopening) hlisted (Token.kind_of_mark hclosing)

/-! ### Operators -/

/-- What stands in parentheses is spelled at any level. -/
theorem respelled_group {w v : List Token} {e : Expr}
    (hw : w.map Token.unplaced = .mark .openParen :: (v ++ [.mark .closeParen]))
    (h : ∀ w', w'.map Token.unplaced = v → ∃ e', Expression .assignment w' e' ∧ e'.Alike e) :
    ∃ e', Expression .callable w e' ∧ e'.Alike e := by
  obtain ⟨opening, _, rfl, hopening, hw⟩ := List.map_eq_cons_iff.mp hw
  obtain ⟨w', _, rfl, hw', hw⟩ := List.map_eq_append_iff.mp hw
  obtain ⟨closing, rfl, hclosing⟩ := List.map_eq_singleton_iff.mp hw
  obtain ⟨e', hspells, halike⟩ := h w' hw'
  have hgroup := Expression.group (Token.kind_of_mark hopening) hspells
    (Token.kind_of_mark hclosing)
  exact ⟨e', .inner hgroup, halike⟩

theorem Respelled.negate {e : Expr} {t : Token} (h : e.Respelled) (ht : t.kind = .minus) :
    (Expr.negate e t).Respelled := by
  intro w hw
  refine respelled_group hw fun w hw => ?_
  obtain ⟨minus, w, rfl, hminus, hw⟩ := List.map_eq_cons_iff.mp hw
  obtain ⟨e', hspells, halike⟩ := h.spells hw .unary (by decide)
  have hnegate := Expression.negate ((Token.kind_of_unplaced hminus).trans ht) hspells
  refine ⟨.negate e' minus, hnegate.loosen (by decide), ?_⟩
  rw [Alike, mapTokens, mapTokens, halike, hminus]

theorem Respelled.binary {op : BinaryOp} {left right : Expr} {t : Token} (hleft : left.Respelled)
    (hright : right.Respelled) (ht : t.kind = op.kind) :
    (Expr.binary op left right t).Respelled := by
  intro w hw
  refine respelled_group hw fun w hw => ?_
  obtain ⟨v, _, rfl, hv, hw⟩ := List.map_eq_append_iff.mp hw
  obtain ⟨sign, v', rfl, hsign, hv'⟩ := List.map_eq_cons_iff.mp hw
  obtain ⟨left', hspells, halike⟩ := hleft.spells hv _ op.rank_le_operand
  obtain ⟨right', hspells', halike'⟩ := hright.spells hv' _ (op.rank_inner_le.trans (by decide))
  have hbinary := Expression.binary rfl hspells ((Token.kind_of_unplaced hsign).trans ht) hspells'
  refine ⟨.binary op left' right' sign, hbinary.loosen (Nat.zero_le _), ?_⟩
  rw [Alike, mapTokens, mapTokens, halike, halike', hsign]

theorem Respelled.assign {target value : Expr} {t : Token} (htarget : target.Respelled)
    (hvalue : value.Respelled) (hleft : target.isTarget = true) (ht : t.kind = .assign) :
    (Expr.assign target value t).Respelled := by
  intro w hw
  refine respelled_group hw fun w hw => ?_
  obtain ⟨v, _, rfl, hv, hw⟩ := List.map_eq_append_iff.mp hw
  obtain ⟨sign, v', rfl, hsign, hv'⟩ := List.map_eq_cons_iff.mp hw
  obtain ⟨target', hspells, halike⟩ := htarget.spells hv .equality (by decide)
  obtain ⟨value', hspells', halike'⟩ := hvalue.spells hv' .assignment (by decide)
  have hassign := Expression.assign hspells (halike.isTarget.trans hleft)
    ((Token.kind_of_unplaced hsign).trans ht) hspells'
  refine ⟨.assign target' value' sign, hassign, ?_⟩
  rw [Alike, mapTokens, mapTokens, halike, halike', hsign]

/-! ### Operands -/

/-- An expression that a single token makes. -/
theorem respelled_atom (atom : Token → Expr) {t : Token} (hword : (atom t).word = [t.unplaced])
    (htightness : (atom t).tightness = .callable)
    (hspells : ∀ t', t'.kind = t.kind → Expression .primary [t'] (atom t'))
    (hmap : ∀ t', (atom t').mapTokens Token.unplaced = atom t'.unplaced) :
    (atom t).Respelled := by
  intro w hw
  rw [hword] at hw
  obtain ⟨t', rfl, ht'⟩ := List.map_eq_singleton_iff.mp hw
  refine ⟨atom t', ?_, ?_⟩
  · rw [htightness]
    exact .inner (hspells t' (Token.kind_of_unplaced ht'))
  · rw [Alike, hmap, hmap, ht']

theorem Respelled.call {callee : Expr} {args : List Expr} (hcallee : callee.Respelled)
    (hcallable : callee.tightness = .callable) (hargs : ∀ e ∈ args, e.Respelled) :
    (Expr.call callee args callee.token).Respelled := by
  intro w hw
  rw [word, List.append_assoc] at hw
  obtain ⟨v, v', rfl, hv, hv'⟩ := List.map_eq_append_iff.mp hw
  obtain ⟨callee', hspells, halike⟩ := hcallee v hv
  obtain ⟨_, ⟨parts, hparts, hw', rfl⟩, hargs'⟩ := respelled_arguments hargs hv'
  refine ⟨_, .call (hcallable ▸ hspells) hparts hw', ?_⟩
  rw [Alike, mapTokens, mapTokens, halike, hargs', halike.token]

theorem Respelled.method {object : Expr} {args : List Expr} {t : Token} (hobject : object.Respelled)
    (ht : t.kind = .identifier) (hargs : ∀ e ∈ args, e.Respelled) :
    (Expr.method object t.value args t).Respelled := by
  intro w hw
  rw [word, List.append_assoc] at hw
  obtain ⟨v, _, rfl, hv, hw⟩ := List.map_eq_append_iff.mp hw
  obtain ⟨dot, _, rfl, hdot, hw⟩ := List.map_eq_cons_iff.mp hw
  obtain ⟨name, v', rfl, hname, hv'⟩ := List.map_eq_cons_iff.mp hw
  obtain ⟨object', hspells, halike⟩ := hobject.spells hv .operand (by decide)
  obtain ⟨_, ⟨parts, hparts, hw', rfl⟩, hargs'⟩ := respelled_arguments hargs hv'
  refine ⟨_, .method hspells (Token.kind_of_mark hdot) ((Token.kind_of_unplaced hname).trans ht)
    hparts hw', ?_⟩
  rw [Alike, mapTokens, mapTokens, halike, hargs', hname, Token.value_of_unplaced hname]

theorem Respelled.member {object : Expr} {t : Token} (hobject : object.Respelled)
    (ht : t.kind = .identifier) : (Expr.member object t.value t).Respelled := by
  intro w hw
  rw [word] at hw
  obtain ⟨v, _, rfl, hv, hw⟩ := List.map_eq_append_iff.mp hw
  obtain ⟨dot, _, rfl, hdot, hw⟩ := List.map_eq_cons_iff.mp hw
  obtain ⟨name, rfl, hname⟩ := List.map_eq_singleton_iff.mp hw
  obtain ⟨object', hspells, halike⟩ := hobject.spells hv .operand (by decide)
  refine ⟨_, .member hspells (Token.kind_of_mark hdot) ((Token.kind_of_unplaced hname).trans ht),
    ?_⟩
  rw [Alike, mapTokens, mapTokens, halike, hname, Token.value_of_unplaced hname]

theorem Respelled.index {object position : Expr} {t : Token} (hobject : object.Respelled)
    (hposition : position.Respelled) (ht : t.kind = .openBracket) :
    (Expr.index object position t).Respelled := by
  intro w hw
  rw [word, List.append_assoc] at hw
  obtain ⟨v, _, rfl, hv, hw⟩ := List.map_eq_append_iff.mp hw
  obtain ⟨opening, _, rfl, hopening, hw⟩ := List.map_eq_cons_iff.mp hw
  obtain ⟨v', _, rfl, hv', hw⟩ := List.map_eq_append_iff.mp hw
  obtain ⟨closing, rfl, hclosing⟩ := List.map_eq_singleton_iff.mp hw
  obtain ⟨object', hspells, halike⟩ := hobject.spells hv .operand (by decide)
  obtain ⟨position', hspells', halike'⟩ :=
    hposition.spells hv' .assignment (by decide)
  have hindex := Expression.index hspells ((Token.kind_of_unplaced hopening).trans ht) hspells'
    (Token.kind_of_mark hclosing)
  refine ⟨.index object' position' opening, by simpa [tightness] using hindex, ?_⟩
  rw [Alike, mapTokens, mapTokens, halike, halike', hopening]

theorem respelled_array {items : List Expr} {t : Token} (hitems : ∀ e ∈ items, e.Respelled)
    (ht : t.kind = .openBracket) : (Expr.array items t).Respelled := by
  intro w hw
  obtain ⟨opening, _, rfl, hopening, hw⟩ := List.map_eq_cons_iff.mp hw
  obtain ⟨v, _, rfl, hv, hw⟩ := List.map_eq_append_iff.mp hw
  obtain ⟨closing, rfl, hclosing⟩ := List.map_eq_singleton_iff.mp hw
  obtain ⟨_, ⟨parts, hparts, hlisted, rfl⟩, hitems'⟩ := respelled_items hitems hv
  have harray := Expression.array ((Token.kind_of_unplaced hopening).trans ht) hparts hlisted
    (Token.kind_of_mark hclosing)
  refine ⟨_, .inner harray, ?_⟩
  rw [Alike, mapTokens, mapTokens, hitems', hopening]

theorem respelled_construct {className : Text} {args : List Expr} {t : Token}
    (hargs : ∀ e ∈ args, e.Respelled) (ht : t.kind = .newWord) :
    (Expr.construct className args t).Respelled := by
  intro w hw
  obtain ⟨word, _, rfl, hword, hw⟩ := List.map_eq_cons_iff.mp hw
  obtain ⟨name, v', rfl, hname, hv'⟩ := List.map_eq_cons_iff.mp hw
  obtain ⟨_, ⟨parts, hparts, hw', rfl⟩, hargs'⟩ := respelled_arguments hargs hv'
  obtain ⟨hkind, hvalue, -⟩ := Token.mk.inj hname
  have hconstruct := Expression.construct ((Token.kind_of_unplaced hword).trans ht) hkind hparts hw'
  refine ⟨_, .inner hconstruct, ?_⟩
  rw [Alike, mapTokens, mapTokens, hargs', hword, hvalue]

end Expr

theorem Expr.respelled_parts {parts : List (Reading Expr)}
    (hparts : ∀ part ∈ parts, (∀ p ∈ part.2.parts, p.Printable) → part.2.Respelled)
    (hprintable : ∀ p ∈ Expr.partsAll (parts.map Prod.snd), p.Printable) :
    ∀ e ∈ parts.map Prod.snd, e.Respelled := by
  rw [Expr.forall_partsAll, List.forall_mem_map] at hprintable
  rw [List.forall_mem_map]
  exact fun part hpart => hparts part hpart (hprintable part hpart)

/-- The word of a printable expression spells it again. -/
theorem Grammar.Expression.respelled {level : Level} {w : List Token} {e : Expr}
    (h : Expression level w e) (hprintable : ∀ p ∈ e.parts, p.Printable) : e.Respelled := by
  induction h with
  | number ht =>
    exact Expr.respelled_atom (fun t => .number (Number.ofText t.value) t) rfl rfl
      (fun _ h => .number (h.trans ht)) fun _ => rfl
  | string ht =>
    exact Expr.respelled_atom (fun t => .string t.value t) rfl rfl
      (fun _ h => .string (h.trans ht)) fun _ => rfl
  | boolean ht =>
    exact Expr.respelled_atom (fun t => .boolean (t.value == "true") t) rfl rfl
      (fun _ h => .boolean (h.trans ht)) fun _ => rfl
  | null ht =>
    exact Expr.respelled_atom .null rfl rfl (fun _ h => .null (h.trans ht)) fun _ => rfl
  | ident ht =>
    exact Expr.respelled_atom (fun t => .ident t.value t) rfl rfl
      (fun _ h => .ident (h.trans ht)) fun _ => rfl
  | inner _ ih => exact ih hprintable
  | group _ _ _ ih => exact ih hprintable
  | negate hminus _ ih => exact (ih (List.forall_mem_cons.mp hprintable).2).negate hminus
  | binary _ _ ht _ ih ih' =>
    simp only [Expr.parts, List.forall_mem_append, List.forall_mem_cons] at hprintable
    exact (ih hprintable.2.1).binary (ih' hprintable.2.2) ht
  | assign _ htarget ht _ ih ih' =>
    simp only [Expr.parts, List.forall_mem_append, List.forall_mem_cons] at hprintable
    exact (ih hprintable.2.1).assign (ih' hprintable.2.2) htarget ht
  | @call callee _ _ _ _ _ _ ih ihparts =>
    simp only [Expr.parts, List.forall_mem_append, List.forall_mem_cons] at hprintable
    obtain ⟨hself, hcallee, hargs⟩ := hprintable
    have hcallable : callee.tightness = .callable := by
      cases callee with
      | member => exact hself.elim
      | _ => rfl
    exact (ih hcallee).call hcallable (Expr.respelled_parts ihparts hargs)
  | method _ _ hname _ _ ih ihparts =>
    simp only [Expr.parts, List.forall_mem_append, List.forall_mem_cons] at hprintable
    exact (ih hprintable.2.1).method hname (Expr.respelled_parts ihparts hprintable.2.2)
  | index _ hopening _ _ ih ih' =>
    simp only [Expr.parts, List.forall_mem_append, List.forall_mem_cons] at hprintable
    exact (ih hprintable.2.1).index (ih' hprintable.2.2) hopening
  | member _ _ hname ih => exact (ih (List.forall_mem_cons.mp hprintable).2).member hname
  | array hopening _ _ _ ih =>
    have hitems := Expr.respelled_parts ih (List.forall_mem_cons.mp hprintable).2
    exact Expr.respelled_array hitems hopening
  | construct hword _ _ _ ih =>
    have hargs := Expr.respelled_parts ih (List.forall_mem_cons.mp hprintable).2
    exact Expr.respelled_construct hargs hword

end Script
