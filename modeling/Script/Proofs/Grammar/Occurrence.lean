import Script.Proofs.Grammar
import Script.Proofs.Parts

/-!
# Expressions and statements inside a word

Every expression that occurs in a tree of the grammar is itself spelled by tokens of the word, and
every expression and statement of the tree is reported at one of them.
-/

namespace Script.Grammar

/-- Some of the tokens spell the expression, at some level. -/
def Occurs (w : List Token) (e : Expr) : Prop :=
  ∃ level v, v ⊆ w ∧ Expression level v e

theorem Occurs.mono {w w' : List Token} {e : Expr} (h : Occurs w e) (hw : w ⊆ w') :
    Occurs w' e := by
  obtain ⟨level, v, hv, he⟩ := h
  exact ⟨level, v, List.Subset.trans hv hw, he⟩

theorem Listed.subset {parts : List (Reading Expr)} {w : List Token} (h : Listed parts w) :
    ∀ part ∈ parts, part.1 ⊆ w := by
  induction h with
  | nil => simp
  | last => simp
  | cons _ _ ih =>
    refine List.forall_mem_cons.mpr ⟨List.subset_append_left _ _, fun part hpart => ?_⟩
    exact List.Subset.trans (ih part hpart) (by simp)

theorem Arguments.subset {parts : List (Reading Expr)} {w : List Token} (h : Arguments parts w) :
    ∀ part ∈ parts, part.1 ⊆ w := by
  obtain ⟨_, hw, _⟩ := h
  exact fun part hpart => List.Subset.trans (hw.subset part hpart) (by simp)

theorem Expression.occurs_self {level : Level} {w : List Token} {e : Expr}
    (h : Expression level w e) : Occurs w e :=
  ⟨level, w, List.Subset.refl w, h⟩

theorem occurs_partsAll {parts : List (Reading Expr)} {w : List Token}
    (hparts : ∀ part ∈ parts, ∀ p ∈ part.2.parts, Occurs part.1 p)
    (hw : ∀ part ∈ parts, part.1 ⊆ w) :
    ∀ p ∈ Expr.partsAll (parts.map Prod.snd), Occurs w p := by
  rw [Expr.forall_partsAll, List.forall_mem_map]
  exact fun part hpart p hp => (hparts part hpart p hp).mono (hw part hpart)

/-- An expression inside another is spelled by some of its tokens. -/
theorem Expression.occurs {level : Level} {w : List Token} {e : Expr}
    (h : Expression level w e) : ∀ p ∈ e.parts, Occurs w p := by
  have hself := h.occurs_self
  induction h with
  | number _ | string _ | boolean _ | null _ | ident _ => simpa [Expr.parts] using hself
  | inner h ih => exact ih h.occurs_self
  | group _ h _ ih => exact fun p hp => (ih h.occurs_self p hp).mono (by simp)
  | array _ hparts hw _ ih =>
    have hitems := occurs_partsAll (fun part h => ih part h (hparts part h).occurs_self) hw.subset
    exact List.forall_mem_cons.mpr ⟨hself, fun p hp => (hitems p hp).mono (by simp)⟩
  | construct _ _ hparts hw ih =>
    have hargs := occurs_partsAll (fun part h => ih part h (hparts part h).occurs_self) hw.subset
    exact List.forall_mem_cons.mpr ⟨hself, fun p hp => (hargs p hp).mono (by simp)⟩
  | call h hparts hw' ih ihparts =>
    have hargs :=
      occurs_partsAll (fun part h => ihparts part h (hparts part h).occurs_self) hw'.subset
    refine List.forall_mem_cons.mpr ⟨hself, List.forall_mem_append.mpr ⟨?_, ?_⟩⟩
    · exact fun p hp => (ih h.occurs_self p hp).mono (by simp)
    · exact fun p hp => (hargs p hp).mono (by simp)
  | method h _ _ hparts hw' ih ihparts =>
    have hargs :=
      occurs_partsAll (fun part h => ihparts part h (hparts part h).occurs_self) hw'.subset
    refine List.forall_mem_cons.mpr ⟨hself, List.forall_mem_append.mpr ⟨?_, ?_⟩⟩
    · exact fun p hp => (ih h.occurs_self p hp).mono (by simp)
    · exact fun p hp => (hargs p hp).mono (by grind)
  | index h _ h' _ ih ih' =>
    refine List.forall_mem_cons.mpr ⟨hself, List.forall_mem_append.mpr ⟨?_, ?_⟩⟩
    · exact fun p hp => (ih h.occurs_self p hp).mono (by simp)
    · exact fun p hp => (ih' h'.occurs_self p hp).mono (by grind)
  | member h _ _ ih =>
    exact List.forall_mem_cons.mpr ⟨hself, fun p hp => (ih h.occurs_self p hp).mono (by simp)⟩
  | negate _ h ih =>
    exact List.forall_mem_cons.mpr ⟨hself, fun p hp => (ih h.occurs_self p hp).mono (by simp)⟩
  | binary _ h _ h' ih ih' =>
    refine List.forall_mem_cons.mpr ⟨hself, List.forall_mem_append.mpr ⟨?_, ?_⟩⟩
    · exact fun p hp => (ih h.occurs_self p hp).mono (by simp)
    · exact fun p hp => (ih' h'.occurs_self p hp).mono (by simp)
  | assign h _ _ h' ih ih' =>
    refine List.forall_mem_cons.mpr ⟨hself, List.forall_mem_append.mpr ⟨?_, ?_⟩⟩
    · exact fun p hp => (ih h.occurs_self p hp).mono (by simp)
    · exact fun p hp => (ih' h'.occurs_self p hp).mono (by simp)

/-- An expression is reported at one of its own tokens. -/
theorem Expression.token_mem {level : Level} {w : List Token} {e : Expr}
    (h : Expression level w e) : e.token ∈ w := by
  induction h with
  | inner _ ih => exact ih
  | group _ _ _ ih => exact List.mem_cons_of_mem _ (List.mem_append_left _ ih)
  | call _ _ _ ih => exact List.mem_append_left _ ih
  | _ => simp [Expr.token]

theorem Occurs.token_mem {w : List Token} {e : Expr} (h : Occurs w e) : e.token ∈ w := by
  obtain ⟨_, _, hv, he⟩ := h
  exact hv he.token_mem

/-! ## Statements -/

theorem Sequence.subset {parts : List (Reading Stmt)} {w : List Token} (h : Sequence parts w) :
    ∀ part ∈ parts, part.1 ⊆ w := by
  induction h with
  | nil => simp
  | semicolon _ _ ih => exact fun part hpart => List.Subset.trans (ih part hpart) (by simp)
  | cons _ ih =>
    refine List.forall_mem_cons.mpr ⟨List.subset_append_left _ _, fun part hpart => ?_⟩
    exact List.Subset.trans (ih part hpart) (List.subset_append_right _ _)

theorem Block.subset {parts : List (Reading Stmt)} {w : List Token} (h : Block parts w) :
    ∀ part ∈ parts, part.1 ⊆ w := by
  obtain ⟨_, hw, _⟩ := h
  exact fun part hpart => List.Subset.trans (hw.subset part hpart) (by simp)

/-- A property that every statement has for its own word, and then for all larger words. -/
structure Local (ending : List Token → Prop) (P : List Token → Stmt → Prop) : Prop where
  mono {w w' : List Token} {s : Stmt} : P w s → w ⊆ w' → P w' s
  initializer {w : List Token} {s : Stmt} : Initializer w s → P w s
  statement {form : Form} {w : List Token} {s : Stmt} : Statement ending form w s → P w s

section

variable {ending : List Token → Prop} {P : List Token → Stmt → Prop} (hP : Local ending P)
include hP

theorem Local.statementsAll {form : Form} {parts : List (Reading Stmt)} {v w : List Token}
    (hparts : ∀ part ∈ parts, Statement ending form part.1 part.2)
    (ih : ∀ part ∈ parts, P part.1 part.2 → ∀ q ∈ part.2.statements, P part.1 q)
    (hv : ∀ part ∈ parts, part.1 ⊆ v) (hw : v ⊆ w) :
    ∀ q ∈ Stmt.statementsAll (parts.map Prod.snd), P w q := by
  rw [Stmt.forall_statementsAll, List.forall_mem_map]
  intro part hpart q hq
  exact hP.mono (ih part hpart (hP.statement (hparts part hpart)) q hq)
    (List.Subset.trans (hv part hpart) hw)

/-- Such a property holds of all statements inside a statement, for the word of the whole. -/
theorem Statement.forall_statements {form : Form} {w : List Token} {s : Stmt}
    (h : Statement ending form w s) : ∀ q ∈ s.statements, P w q := by
  have hself := hP.statement h
  induction h with
  | func h ih | branch h ih => exact ih (hP.statement h)
  | ret | expr => simpa [Stmt.statements] using hself
  | function _ _ _ _ _ hparts hw' ih | whileLoop _ _ hparts hw' ih =>
    exact List.forall_mem_cons.mpr ⟨hself, hP.statementsAll hparts ih hw'.subset (by grind)⟩
  | classDef _ _ _ hparts hw _ ih =>
    exact List.forall_mem_cons.mpr ⟨hself, hP.statementsAll hparts ih hw.subset (by grind)⟩
  | forLoop _ _ hw _ _ _ _ _ hparts hbody ih =>
    refine List.forall_mem_cons.mpr ⟨hself, List.forall_mem_append.mpr ⟨?_, ?_⟩⟩
    · have hinit := hP.initializer hw
      cases hw <;> simpa [Stmt.statements] using hP.mono hinit (by grind)
    · exact hP.statementsAll hparts ih hbody.subset (by grind)
  | single _ _ hparts hw' ih =>
    refine List.forall_mem_cons.mpr ⟨hself, List.forall_mem_append.mpr ⟨?_, ?_⟩⟩
    · exact hP.statementsAll hparts ih hw'.subset (by grind)
    · simp [Stmt.statementsAll]
  | otherwise _ _ hparts hw' _ hothers hw'' ih ihothers =>
    refine List.forall_mem_cons.mpr ⟨hself, List.forall_mem_append.mpr ⟨?_, ?_⟩⟩
    · exact hP.statementsAll hparts ih hw'.subset (by grind)
    · exact hP.statementsAll hothers ihothers hw''.subset (by grind)
  | elseIf _ _ hparts hw' _ hnext ih ihnext | elseif _ _ hparts hw' hnext ih ihnext =>
    refine List.forall_mem_cons.mpr ⟨hself, List.forall_mem_append.mpr ⟨?_, ?_⟩⟩
    · exact hP.statementsAll hparts ih hw'.subset (by grind)
    · rw [Stmt.forall_statementsAll, List.forall_mem_singleton]
      exact fun q hq => hP.mono (ihnext (hP.statement hnext) q hq) (by grind)

theorem Body.forall_statements {w : List Token} {body : List Stmt} (h : Body ending w body) :
    ∀ q ∈ Stmt.statementsAll body, P w q := by
  obtain ⟨parts, hparts, hw, rfl⟩ := h
  exact hP.statementsAll hparts (fun part hpart _ => (hparts part hpart).forall_statements hP)
    hw.subset (List.Subset.refl w)

end

/-- Every expression that stands in the statement occurs in the word. -/
def ExprsOccur (w : List Token) (s : Stmt) : Prop :=
  ∀ e ∈ s.exprs, e = .hole ∨ Occurs w e

theorem Optional.occurs {w : List Token} {e : Expr} (h : Optional w e) :
    e = .hole ∨ Occurs w e := by
  cases h with
  | none => exact .inl rfl
  | some h => exact .inr h.occurs_self

theorem Expression.occurs_in {level : Level} {v w : List Token} {e : Expr}
    (h : Expression level v e) (hv : v ⊆ w) : e = .hole ∨ Occurs w e :=
  .inr (h.occurs_self.mono hv)

theorem Initializer.exprsOccur {w : List Token} {s : Stmt} (h : Initializer w s) :
    ExprsOccur w s := by
  cases h with
  | none => simp [ExprsOccur, Stmt.exprs]
  | some h => simpa [ExprsOccur, Stmt.exprs] using Or.inr h.occurs_self

theorem Statement.exprsOccur {ending : List Token → Prop} {form : Form} {w : List Token} {s : Stmt}
    (h : Statement ending form w s) : ExprsOccur w s := by
  induction h with
  | func _ ih | branch _ ih => exact ih
  | function | classDef => simp [ExprsOccur, Stmt.exprs]
  | ret _ hw _ => simpa [ExprsOccur, Stmt.exprs] using hw.occurs.imp id (·.mono (by grind))
  | expr he | whileLoop _ he | single _ he | otherwise _ he | elseIf _ he | elseif _ he =>
    exact List.forall_mem_singleton.mpr (he.occurs_in (by grind))
  | forLoop _ _ _ _ he _ hw'' =>
    refine List.forall_mem_cons.mpr ⟨he.occurs_in (by grind), ?_⟩
    exact List.forall_mem_singleton.mpr (hw''.occurs.imp id (·.mono (by grind)))

theorem local_exprsOccur (ending : List Token → Prop) : Local ending ExprsOccur where
  mono h hw e he := (h e he).imp id (·.mono hw)
  initializer := Initializer.exprsOccur
  statement := Statement.exprsOccur

/-- Every expression of a program occurs in its word. -/
theorem Body.occurs {ending : List Token → Prop} {w : List Token} {body : List Stmt}
    (h : Body ending w body) {s : Stmt} (hs : s ∈ Stmt.statementsAll body) {whole e : Expr}
    (hwhole : whole ∈ s.exprs) (he : e ∈ whole.parts) (hhole : e ≠ .hole) : Occurs w e := by
  rcases h.forall_statements (local_exprsOccur ending) s hs whole hwhole with rfl | hoccurs
  · exact absurd (List.mem_singleton.mp he) hhole
  · obtain ⟨_, _, hv, hspells⟩ := hoccurs
    exact (hspells.occurs e he).mono hv

theorem Statement.token_mem {ending : List Token → Prop} {form : Form} {w : List Token} {s : Stmt}
    (h : Statement ending form w s) : s.token ∈ w := by
  induction h with
  | func _ ih | branch _ ih => exact ih
  | _ => simp [Stmt.token]

/-- Every statement of a program is reported at a token of its word. -/
theorem Body.token_mem {ending : List Token → Prop} {w : List Token} {body : List Stmt}
    (h : Body ending w body) {s : Stmt} (hs : s ∈ Stmt.statementsAll body) (hhole : s ≠ .hole) :
    s.token ∈ w := by
  have hlocal : Local ending fun w s => s ≠ .hole → s.token ∈ w :=
    { mono := fun h hw hhole => hw (h hhole)
      initializer := fun h hhole => by cases h <;> simp_all [Stmt.token]
      statement := fun h _ => h.token_mem }
  exact h.forall_statements hlocal s hs hhole

end Script.Grammar
