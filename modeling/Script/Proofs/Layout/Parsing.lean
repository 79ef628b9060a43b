import Script.Proofs.Grammar.Refusal
import Script.Proofs.Layout.Unplaced

/-!
# Parsing does not look at places

A parser that is given tokens without places builds the tree without places, and refuses what it
refuses for the same reason and at the same token. `Mirrors` says this of one parser; it passes
through `>>=`, so each parser gets it from the parsers it is made of.
-/

namespace Script

namespace Parser

variable {α β γ δ : Type}

/-- What a parser returns, with the tree changed by `f` and without the places of what is left. -/
def image (f : α → β) : Except Refusal (α × List Token) → Except Refusal (β × List Token)
  | .ok (a, rest) => .ok (f a, rest.map Token.unplaced)
  | .error r => .error ⟨r.complaint, r.rest.map Token.unplaced⟩

/-- The second parser makes of tokens without places what the first makes of the tokens. -/
def Mirrors (f : α → β) (p : Parser α) (q : Parser β) : Prop :=
  ∀ tokens, q (tokens.map Token.unplaced) = image f (p tokens)

/-! ## Rules for all parsers -/

theorem mirrors_pure {f : α → β} {a : α} {b : β} (h : f a = b) :
    Mirrors f (pure a : Parser α) (pure b) := by
  subst h
  exact fun _ => rfl

theorem Mirrors.bind {f : α → β} {p : Parser α} {q : Parser β} {g : γ → δ} {k : α → Parser γ}
    {l : β → Parser δ} (h : Mirrors f p q) (hk : ∀ a, Mirrors g (k a) (l (f a))) :
    Mirrors g (p >>= k) (q >>= l) := by
  intro tokens
  change (q (tokens.map Token.unplaced) >>= fun r => l r.1 r.2) =
    image g (p tokens >>= fun r => k r.1 r.2)
  rw [h tokens]
  cases p tokens with
  | error r => rfl
  | ok r => exact hk r.1 r.2

theorem Mirrors.map {f : α → β} {p : Parser α} {q : Parser β} {g : γ → δ} {k : α → γ} {l : β → δ}
    (h : Mirrors f p q) (hk : ∀ a, g (k a) = l (f a)) :
    Mirrors g (p >>= fun a => pure (k a)) (q >>= fun b => pure (l b)) :=
  h.bind fun a => mirrors_pure (hk a)

theorem Mirrors.ite {f : α → β} {p p' : Parser α} {q q' : Parser β} {c : Prop} [Decidable c]
    (h : Mirrors f p q) (h' : Mirrors f p' q') :
    Mirrors f (if c then p else p') (if c then q else q') := by
  split
  · exact h
  · exact h'

/-! ## Single tokens -/

section

variable {whole : Parser Expr} (hwhole : Mirrors Expr.unplaced whole whole)
include hwhole

end

section

variable {stmt : Parser Stmt} (hstmt : Mirrors Stmt.unplaced stmt stmt)
include hstmt

variable {expr : Parser Expr} (hexpr : Mirrors Expr.unplaced expr expr)
include hexpr

end

end Parser

/-! ## Programs -/

/-- What parsing gives, without places. -/
def Program.reading (r : Except SyntaxError Program) : Except Complaint Program :=
  (r.map Program.unplaced).mapError SyntaxError.complaint

end Script
