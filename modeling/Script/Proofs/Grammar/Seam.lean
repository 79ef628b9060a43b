import Script.Proofs.Grammar.Refusal

/-!
# Two programs in one list of tokens

A statement that is read up to the end of the input is read up to a semicolon too, which it may take
for its own. So two lists with a semicolon between them, in the place of the first one's end, are a
list of their own, and the statements of the first are followed by those of the second.
-/

namespace Script

open Grammar

namespace Parser

variable {ι α β : Type}

/-! ## Single statements -/

section

variable {p : Parser α} {q : ι → Parser α} {follow : Token.Kind → Prop} {strict : Bool}
  {w tokens rest : List Token} {last : Token} {a : α}

end

theorem statementWith_return {expr : Parser Expr} {stmt : Parser Stmt} {n : Nat} {t : Token}
    {v : List Token} (ht : t.kind = .returnWord) :
    statementWith expr stmt n (t :: v) = returned expr t v := by
  rw [statementWith, peek_bind]
  simp only [ht]
  rfl

end Parser

theorem Grammar.Finished.append {tokens : List Token} (h : Finished tokens) (w : List Token)
    (s : Token) : Finished (w ++ s :: tokens) := by
  obtain ⟨last, hlast, hkind⟩ := h
  exact ⟨last, by simp [List.getLast?_cons, hlast], hkind⟩

end Script
