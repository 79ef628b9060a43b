import Script.Proofs.Grammar.Terminated

/-!
# How a parser gets on with its tokens

A parser decides by one token at a time. So what it makes of a list, it makes of every list that
begins alike up to the token where it stops; and where it refuses that token, the tokens before it
could have gone on in another way.

`Course` says this of one list, and `Viable` of all lists that are short enough for the count of the
parser. Both compare a parser with others that differ from it in their counts only: those have
larger ones, since the list that goes on in another way may be longer. `Viable` passes through
`>>=`, so each parser gets it from the parsers it is made of.
-/

namespace Script

open Grammar

/-- Some token marks the end of the input. -/
def Grammar.Ended (tokens : List Token) : Prop :=
  ∃ t ∈ tokens, t.kind = .endOfInput

theorem Grammar.Ended.ne_nil {tokens : List Token} (h : Ended tokens) : tokens ≠ [] := by
  obtain ⟨t, ht, -⟩ := h
  exact List.ne_nil_of_mem ht

theorem Grammar.Ended.rest {w rest : List Token} (h : Ended (w ++ rest)) (hw : Inside w) :
    Ended rest := by
  obtain ⟨t, ht, hkind⟩ := h
  rcases List.mem_append.mp ht with ht | ht
  · exact absurd hkind (hw t ht)
  · exact ⟨t, ht, hkind⟩

/-- The semicolons at the front come to an end. -/
theorem Grammar.Ended.semicolons {tokens : List Token} (h : Ended tokens) :
    ∃ w t v, tokens = w ++ t :: v ∧ (∀ t ∈ w, t.kind = .semicolon) ∧ t.kind ≠ .semicolon := by
  induction tokens with
  | nil => exact absurd rfl h.ne_nil
  | cons t v ih =>
    by_cases ht : t.kind = .semicolon
    · obtain ⟨w, t', v', rfl, hw, ht'⟩ := ih (h.rest (w := [t]) (by simp [ht]))
      exact ⟨t :: w, t', v', rfl, List.forall_mem_cons.mpr ⟨ht, hw⟩, ht'⟩
    · exact ⟨[], t, v, rfl, by simp, ht⟩

namespace Parser

variable {ι α β : Type}

/-- What a parser `p` makes of a list, and every `q i` of the lists that begin alike. What has been
read stays read with a token of the `follow` kinds behind it, and a strict parser reads something.
Where a token is refused after others, it and what comes after it can be replaced, up to a token of
the `follow` kinds, so that all `q i` succeed. -/
inductive Course (p : Parser α) (q : ι → Parser α) (follow : Token.Kind → Prop) (strict : Bool)
    (tokens : List Token) : Prop
  | takes {w : List Token} {t : Token} {v : List Token} {a : α} (hsplit : tokens = w ++ t :: v)
      (hinside : Inside w) (hstrict : strict = true → w ≠ []) (hp : p tokens = .ok (a, t :: v))
      (hq : ∀ i t' v', t' = t ∨ follow t'.kind → q i (w ++ t' :: v') = .ok (a, t' :: v'))
  | refuses {w : List Token} {t : Token} {v : List Token} {complaint : Complaint}
      (hsplit : tokens = w ++ t :: v) (hinside : Inside w)
      (hcomplaint : complaint ≠ .unendedTokens) (hp : p tokens = .error ⟨complaint, t :: v⟩)
      (hq : ∀ i v', q i (w ++ t :: v') = .error ⟨complaint, t :: v'⟩)
      (hviable : w ≠ [] → ∃ w' a, ∀ i t' v', follow t'.kind →
        q i (w ++ (w' ++ t' :: v')) = .ok (a, t' :: v'))

/-- Some word, from a token of the `entry` kinds on, is read in front of the `follow` kinds. -/
def Completes (q : ι → Parser α) (entry follow : Token.Kind → Prop) : Prop :=
  ∃ w a, ∀ t v, follow t.kind →
    (∃ t' v', w ++ t :: v = t' :: v' ∧ entry t'.kind) ∧ ∀ i, q i (w ++ t :: v) = .ok (a, t :: v)

/-- Every list within the bound has its course, and there is a word from scratch. A parser that can
do without a word can be entered at the tokens that follow it. -/
structure Viable (p : Parser α) (q : ι → Parser α) (entry follow : Token.Kind → Prop)
    (strict : Bool) (bound : Nat) : Prop where
  completes : Completes q entry follow
  entered : strict = false → ∀ kind, follow kind → entry kind
  course : ∀ tokens, Ended tokens → tokens.length ≤ bound → Course p q follow strict tokens

theorem bind_of_error {p : Parser α} {f : α → Parser β} {tokens : List Token} {r : Refusal}
    (h : p tokens = .error r) : (p >>= f) tokens = .error r := by
  change (p tokens >>= fun r => f r.1 r.2) = _
  rw [h]
  rfl

/-! ## Rules for all parsers -/

section

variable {p : Parser α} {q : ι → Parser α} {f : α → Parser β} {g : ι → α → Parser β}
  {entry entry' middle middle' follow follow' : Token.Kind → Prop} {strict strict' : Bool}
  {bound bound' : Nat} {tokens : List Token}

theorem Course.mono (h : Course p q follow strict tokens)
    (hfollow : ∀ kind, follow' kind → follow kind) (hstrict : strict' = true → strict = true) :
    Course p q follow' strict' tokens := by
  cases h with
  | takes hsplit hinside hstrict' hp hq =>
    refine .takes hsplit hinside (fun h => hstrict' (hstrict h)) hp fun i t' v' ht' => hq i t' v' ?_
    exact ht'.imp_right (hfollow _)
  | refuses hsplit hinside hcomplaint hp hq hviable =>
    refine .refuses hsplit hinside hcomplaint hp hq fun hw => ?_
    obtain ⟨w', a, hviable⟩ := hviable hw
    exact ⟨w', a, fun i t' v' ht' => hviable i t' v' (hfollow _ ht')⟩

theorem Course.agrees (h : Course p q follow strict tokens) (i : ι) : q i tokens = p tokens := by
  cases h with
  | @takes w t v a hsplit _ _ hp hq => rw [hp, hsplit, hq i t v (.inl rfl)]
  | @refuses w t v complaint hsplit _ _ hp hq _ => rw [hp, hsplit, hq i v]

theorem Viable.shorten (h : Viable p q entry follow strict bound) (hbound : bound' ≤ bound) :
    Viable p q entry follow strict bound' :=
  ⟨h.completes, h.entered, fun tokens hended hlength =>
    h.course tokens hended (hlength.trans hbound)⟩

theorem Viable.narrow (h : Viable p q entry follow strict bound)
    (hfollow : ∀ kind, follow' kind → follow kind) : Viable p q entry follow' strict bound := by
  refine ⟨?_, fun hloose kind hkind => h.entered hloose kind (hfollow _ hkind),
    fun tokens hended hlength => (h.course tokens hended hlength).mono hfollow id⟩
  obtain ⟨w, a, hw⟩ := h.completes
  exact ⟨w, a, fun t v ht => hw t v (hfollow _ ht)⟩

/-- More tokens may be said to begin a word, and then the parser need not be strict. -/
theorem Viable.widen (h : Viable p q entry follow strict bound)
    (hentry : ∀ kind, entry kind → entry' kind) (hentered : ∀ kind, follow kind → entry' kind) :
    Viable p q entry' follow false bound := by
  refine ⟨?_, fun _ => hentered, fun tokens hended hlength => ?_⟩
  · obtain ⟨w, a, hw⟩ := h.completes
    refine ⟨w, a, fun t v ht => ?_⟩
    obtain ⟨⟨t', v', hcons, ht'⟩, hread⟩ := hw t v ht
    exact ⟨⟨t', v', hcons, hentry _ ht'⟩, hread⟩
  · exact (h.course tokens hended hlength).mono (fun _ h => h) nofun

/-- What has been read before a refusal can be completed, also if it is nothing. -/
theorem Viable.completion (h : Viable p q entry follow strict bound) {w : List Token}
    (hviable : w ≠ [] → ∃ w' a, ∀ i t' v', follow t'.kind →
      q i (w ++ (w' ++ t' :: v')) = .ok (a, t' :: v')) :
    ∃ w' a, ∀ i t' v', follow t'.kind → q i (w ++ (w' ++ t' :: v')) = .ok (a, t' :: v') := by
  cases w with
  | nil =>
    obtain ⟨w', a, hw'⟩ := h.completes
    exact ⟨w', a, fun i t' v' ht' => (hw' t' v' ht').2 i⟩
  | cons s w => exact hviable (List.cons_ne_nil _ _)

theorem viable_of_strict (hcompletes : Completes q entry follow)
    (hcourse : ∀ tokens, Ended tokens → tokens.length ≤ bound → Course p q follow true tokens) :
    Viable p q entry follow true bound :=
  ⟨hcompletes, nofun, hcourse⟩

/-- A parser that has used up its count is not asked anything. -/
theorem course_of_exhausted (hended : Ended tokens) (hlength : tokens.length ≤ 0) :
    Course p q follow strict tokens :=
  absurd (List.length_eq_zero_iff.mp (Nat.le_zero.mp hlength)) hended.ne_nil

theorem viable_of_completes (h : Completes q entry follow) : Viable p q entry follow true 0 :=
  viable_of_strict h fun _ => course_of_exhausted

theorem viable_of_stays (a : α)
    (h : ∀ i t v, follow t.kind → q i (t :: v) = .ok (a, t :: v)) :
    Viable p q follow follow false 0 :=
  ⟨⟨[], a, fun t v ht => ⟨⟨t, v, rfl, ht⟩, fun i => h i t v ht⟩⟩, fun _ _ h => h,
    fun _ => course_of_exhausted⟩

theorem Completes.bind (hq : Completes q entry middle)
    (hg : ∀ a, Completes (fun i => g i a) middle' follow)
    (hmiddle : ∀ kind, middle' kind → middle kind) :
    Completes (fun i => q i >>= g i) entry follow := by
  obtain ⟨w, a, hw⟩ := hq
  obtain ⟨w', b, hw'⟩ := hg a
  refine ⟨w ++ w', b, fun t v ht => ?_⟩
  obtain ⟨⟨t', v', hcons, ht'⟩, hread'⟩ := hw' t v ht
  obtain ⟨hfirst, hread⟩ := hw t' v' (hmiddle _ ht')
  rw [List.append_assoc, hcons]
  refine ⟨hfirst, fun i => (bind_of_ok (hread i)).trans ?_⟩
  rw [← hcons]
  exact hread' i

/-- After a first part, a second one refuses a token at once or later. At once, the second part can
be read from scratch. -/
theorem Course.bind (hp : Course p q middle strict tokens) (hended : Ended tokens)
    (hlength : tokens.length ≤ bound)
    (hf : ∀ a, Viable (f a) (fun i => g i a) middle' follow strict' (bound - strict.toNat))
    (hmiddle : ∀ kind, middle' kind → middle kind) :
    Course (p >>= f) (fun i => q i >>= g i) follow (strict || strict') tokens := by
  cases hp with
  | @refuses w t v complaint hsplit hinside hcomplaint hp hq hviable =>
    refine .refuses hsplit hinside hcomplaint (bind_of_error hp)
      (fun i v' => bind_of_error (hq i v')) fun hw => ?_
    obtain ⟨w', a, hw'⟩ := hviable hw
    obtain ⟨w'', b, hw''⟩ := (hf a).completes
    refine ⟨w' ++ w'', b, fun i t' v' ht' => ?_⟩
    obtain ⟨⟨next, later, hcons, hnext⟩, hread⟩ := hw'' t' v' ht'
    rw [List.append_assoc, hcons, bind_of_ok (hw' i next later (hmiddle _ hnext)), ← hcons]
    exact hread i
  | @takes w t v a hsplit hinside hstrict hp hq =>
    subst hsplit
    have hlength' : (t :: v).length ≤ bound - strict.toNat := by
      rw [List.length_append] at hlength
      cases strict with
      | false => exact (Nat.le_add_left _ _).trans hlength
      | true =>
        have hpos := List.length_pos_iff.mpr (hstrict rfl)
        rw [Bool.toNat_true]
        omega
    -- The first part is read again wherever its next token is the same or one that may follow it.
    have hagain {tokens' t' v'} (hcons : tokens' = t' :: v') (ht' : t' = t ∨ middle' t'.kind)
        (i) : (q i >>= g i) (w ++ tokens') = g i a tokens' := by
      rw [hcons, bind_of_ok (hq i t' v' (ht'.imp_right (hmiddle _)))]
    cases (hf a).course (t :: v) (hended.rest hinside) hlength' with
    | @takes w' t' v' b hsplit' hinside' hstrict' hf' hg' =>
      refine .takes (by rw [hsplit', List.append_assoc]) (inside_append.mpr ⟨hinside, hinside'⟩)
        ?_ ((bind_of_ok hp).trans hf') fun i next later hnext => ?_
      · intro h hnil
        obtain ⟨hw, hw'⟩ := List.append_eq_nil_iff.mp hnil
        rcases Bool.or_eq_true_iff.mp h with h | h
        · exact hstrict h hw
        · exact hstrict' h hw'
      rw [List.append_assoc]
      refine Eq.trans ?_ (hg' i next later hnext)
      cases w' with
      | nil =>
        obtain ⟨rfl, rfl⟩ := List.cons.inj hsplit'
        have hloose : strict' = false := by simpa using hstrict'
        exact hagain rfl (hnext.imp_right ((hf a).entered hloose _)) i
      | cons s w' =>
        obtain ⟨rfl, -⟩ := List.cons.inj hsplit'
        exact hagain rfl (.inl rfl) i
    | @refuses w' t' v' complaint hsplit' hinside' hcomplaint hf' hg' hviable =>
      refine .refuses (by rw [hsplit', List.append_assoc])
        (inside_append.mpr ⟨hinside, hinside'⟩) hcomplaint ((bind_of_ok hp).trans hf')
        (fun i later => ?_) fun _ => ?_
      · rw [List.append_assoc]
        refine Eq.trans ?_ (hg' i later)
        cases w' with
        | nil =>
          obtain ⟨rfl, rfl⟩ := List.cons.inj hsplit'
          exact hagain rfl (.inl rfl) i
        | cons s w' =>
          obtain ⟨rfl, -⟩ := List.cons.inj hsplit'
          exact hagain rfl (.inl rfl) i
      · cases w' with
        | nil =>
          obtain ⟨w'', b, hw''⟩ := (hf a).completes
          refine ⟨w'', b, fun i next later hnext => ?_⟩
          obtain ⟨⟨s, v'', hcons, hs⟩, hread⟩ := hw'' next later hnext
          rw [List.append_nil, hagain hcons (.inr hs)]
          exact hread i
        | cons s w' =>
          obtain ⟨rfl, -⟩ := List.cons.inj hsplit'
          obtain ⟨w'', b, hw''⟩ := hviable (List.cons_ne_nil _ _)
          refine ⟨w'', b, fun i next later hnext => ?_⟩
          rw [List.append_assoc]
          exact (hagain rfl (.inl rfl) i).trans (hw'' i next later hnext)

theorem Viable.bind (hp : Viable p q entry middle strict bound)
    (hf : ∀ a, Viable (f a) (fun i => g i a) middle' follow strict' (bound - strict.toNat))
    (hmiddle : ∀ kind, middle' kind → middle kind) :
    Viable (p >>= f) (fun i => q i >>= g i) entry follow (strict || strict') bound := by
  refine ⟨hp.completes.bind (fun a => (hf a).completes) hmiddle, ?_, fun tokens hended hlength =>
    (hp.course tokens hended hlength).bind hended hlength hf hmiddle⟩
  intro hloose kind hkind
  obtain ⟨hstrict, hstrict'⟩ := Bool.or_eq_false_iff.mp hloose
  obtain ⟨w, a, -⟩ := hp.completes
  exact hp.entered hstrict kind (hmiddle _ ((hf a).entered hstrict' kind hkind))

end

/-! ## Single tokens -/

section

variable {f : Token → Parser α} {g : ι → Token → Parser α} {entry follow : Token.Kind → Prop}
  {strict : Bool} {bound : Nat} {t : Token} {v : List Token}

theorem course_refuse {complaint : Complaint} (hcomplaint : complaint ≠ .unendedTokens) :
    Course (refuse complaint : Parser α) (fun _ : ι => refuse complaint) follow strict (t :: v) :=
  .refuses (w := []) rfl inside_nil hcomplaint rfl (fun _ _ => rfl) fun h => absurd rfl h

/-- The next token is looked at, and something is taken. -/
theorem Course.peek (h : Course (f t) (fun i => g i t) follow true (t :: v)) :
    Course (Parser.peek >>= f) (fun i => Parser.peek >>= g i) follow true (t :: v) := by
  cases h with
  | @takes w t' v' a hsplit hinside hstrict hp hq =>
    cases w with
    | nil => exact absurd rfl (hstrict rfl)
    | cons s w =>
      obtain ⟨rfl, -⟩ := List.cons.inj hsplit
      exact .takes hsplit hinside hstrict hp hq
  | @refuses w t' v' complaint hsplit hinside hcomplaint hp hq hviable =>
    cases w with
    | nil =>
      obtain ⟨rfl, -⟩ := List.cons.inj hsplit
      exact .refuses hsplit hinside hcomplaint hp hq fun h => absurd rfl h
    | cons s w =>
      obtain ⟨rfl, -⟩ := List.cons.inj hsplit
      exact .refuses hsplit hinside hcomplaint hp hq hviable

/-- The tokens that begin a word all decide for the same parser. -/
theorem Completes.peek {q : ι → Parser α} (h : Completes q entry follow)
    (hg : ∀ t, entry t.kind → ∀ i, g i t = q i) :
    Completes (fun i => Parser.peek >>= g i) entry follow := by
  obtain ⟨w, a, hw⟩ := h
  refine ⟨w, a, fun t v ht => ?_⟩
  obtain ⟨⟨t', v', hcons, ht'⟩, hread⟩ := hw t v ht
  refine ⟨⟨t', v', hcons, ht'⟩, fun i => ?_⟩
  have hsame : (Parser.peek >>= g i) (t' :: v') = q i (t' :: v') := by rw [peek_bind, hg t' ht' i]
  rw [hcons] at hread ⊢
  exact hsame.trans (hread i)

/-- The next token decides, and something is taken or refused. -/
theorem viable_choice (hcompletes : Completes (fun i => Parser.peek >>= g i) entry follow)
    (hcourse : ∀ t v, Ended (t :: v) → (t :: v).length ≤ bound →
      Course (f t) (fun i => g i t) follow true (t :: v)) :
    Viable (Parser.peek >>= f) (fun i => Parser.peek >>= g i) entry follow true bound := by
  refine viable_of_strict hcompletes fun tokens hended hlength => ?_
  obtain ⟨t, v, rfl⟩ := List.exists_cons_of_ne_nil hended.ne_nil
  exact (hcourse t v hended hlength).peek

/-- The next token decides, and nothing is taken where it is of the `stop` kinds. -/
theorem viable_until {stop : Token.Kind → Prop} {a : α}
    (hstop : ∀ t, stop t.kind → f t = pure a ∧ ∀ i, g i t = pure a)
    (hfollow : ∀ kind, follow kind → stop kind)
    (hcourse : ∀ t v, ¬ stop t.kind → Ended (t :: v) → (t :: v).length ≤ bound →
      Course (f t) (fun i => g i t) follow true (t :: v)) :
    Viable (Parser.peek >>= f) (fun i => Parser.peek >>= g i) follow follow false bound := by
  have hstay {t v} (ht : stop t.kind) (i) :
      (Parser.peek >>= g i) (t :: v) = .ok (a, t :: v) := by
    rw [peek_bind, (hstop t ht).2]
    rfl
  refine ⟨⟨[], a, fun t v ht => ⟨⟨t, v, rfl, ht⟩, hstay (hfollow _ ht)⟩⟩, fun _ _ h => h, ?_⟩
  intro tokens hended hlength
  obtain ⟨t, v, rfl⟩ := List.exists_cons_of_ne_nil hended.ne_nil
  by_cases ht : stop t.kind
  · refine .takes (w := []) rfl inside_nil nofun (a := a) ?_ fun i t' v' ht' => hstay ?_ i
    · rw [peek_bind, (hstop t ht).1]
      rfl
    · rcases ht' with rfl | ht'
      · exact ht
      · exact hfollow _ ht'
  · exact ((hcourse t v ht hended hlength).peek).mono (fun _ h => h) nofun

/-- The next token is taken, whatever comes after it. -/
theorem course_advance (ht : t.kind ≠ .endOfInput) (hended : Ended (t :: v))
    (hlength : v.length ≤ bound)
    (h : Viable (f t) (fun i => g i t) entry follow strict bound) :
    Course (Parser.advance >>= f) (fun i => Parser.advance >>= g i) follow true (t :: v) := by
  have hrest : Ended v := hended.rest (w := [t]) (by simpa using ht)
  cases h.course v hrest hlength with
  | @takes w t' v' a hsplit hinside _ hp hq =>
    exact .takes (w := t :: w) (by rw [hsplit]; rfl) (inside_cons.mpr ⟨ht, hinside⟩)
      (fun _ => List.cons_ne_nil _ _) hp hq
  | @refuses w t' v' complaint hsplit hinside hcomplaint hp hq hviable =>
    exact .refuses (w := t :: w) (by rw [hsplit]; rfl) (inside_cons.mpr ⟨ht, hinside⟩)
      hcomplaint hp hq fun _ => h.completion hviable

end

section

variable {entry follow : Token.Kind → Prop} {bound : Nat}

theorem viable_pure (a : α) (hentered : ∀ kind, follow kind → entry kind) :
    Viable (pure a : Parser α) (fun _ : ι => pure a) entry follow false bound := by
  refine ⟨⟨[], a, fun t v ht => ⟨⟨t, v, rfl, hentered _ ht⟩, fun _ => rfl⟩⟩, fun _ => hentered, ?_⟩
  intro tokens hended _
  obtain ⟨t, v, rfl⟩ := List.exists_cons_of_ne_nil hended.ne_nil
  exact .takes (w := []) rfl inside_nil nofun rfl fun _ _ _ _ => rfl

theorem viable_expect {kind : Token.Kind} {complaint : Complaint} (hkind : kind ≠ .endOfInput)
    (hcomplaint : complaint ≠ .unendedTokens) :
    Viable (expect kind complaint) (fun _ : ι => expect kind complaint) (· = kind)
      (fun _ => True) true bound := by
  refine viable_of_strict ⟨[{ kind }], { kind }, fun t v _ => ⟨⟨_, _, rfl, rfl⟩, fun _ => ?_⟩⟩ ?_
  · exact expect_ok.mpr ⟨rfl, rfl⟩
  intro tokens hended _
  obtain ⟨t, v, rfl⟩ := List.exists_cons_of_ne_nil hended.ne_nil
  by_cases ht : t.kind = kind
  · have hrest : Ended v := hended.rest (w := [t]) (by simp [ht, hkind])
    obtain ⟨t', v', rfl⟩ := List.exists_cons_of_ne_nil hrest.ne_nil
    refine .takes (w := [t]) rfl (by simp [ht, hkind]) (by simp) (expect_ok.mpr ⟨rfl, ht⟩) ?_
    exact fun _ _ _ _ => expect_ok.mpr ⟨rfl, ht⟩
  · refine Course.peek ?_
    simp only [if_neg ht]
    exact course_refuse hcomplaint

/-- What comes after a token of a fixed kind. -/
theorem viable_after {kind : Token.Kind} {complaint : Complaint} {f : Token → Parser α}
    {g : ι → Token → Parser α} {strict : Bool} (hkind : kind ≠ .endOfInput)
    (hcomplaint : complaint ≠ .unendedTokens)
    (h : ∀ t, Viable (f t) (fun i => g i t) entry follow strict (bound - 1)) :
    Viable (expect kind complaint >>= f) (fun i => expect kind complaint >>= g i) (· = kind) follow
      true bound :=
  (viable_expect hkind hcomplaint).bind h fun _ _ => trivial

theorem Viable.map {p : Parser α} {q : ι → Parser α} {strict : Bool}
    (hp : Viable p q entry follow strict bound) (build : α → β) :
    Viable (p >>= fun a => pure (build a)) (fun i => q i >>= fun a => pure (build a)) entry follow
      strict bound := by
  have h := hp.bind (fun a => viable_pure (build a) fun _ h => h) fun _ h => h
  rwa [Bool.or_false] at h

/-- A part and the token that closes it. -/
theorem Viable.closed {p : Parser α} {q : ι → Parser α} {strict : Bool}
    (hp : Viable p q entry follow strict bound) {kind : Token.Kind} (hfollow : follow kind)
    (hkind : kind ≠ .endOfInput)
    {complaint : Complaint} (hcomplaint : complaint ≠ .unendedTokens) (build : α → β) :
    Viable (do let a ← p; let _ ← expect kind complaint; return build a)
      (fun i => do let a ← q i; let _ ← expect kind complaint; return build a) entry
      (fun _ => True) true bound := by
  have h := hp.bind (fun a => (viable_expect hkind hcomplaint).map fun _ => build a)
    fun _ h => h ▸ hfollow
  rwa [Bool.or_true] at h

theorem viable_accept (follow : Token.Kind → Prop) {kind : Token.Kind}
    (hkind : kind ≠ .endOfInput) (hfollow : ¬ follow kind) :
    Viable (accept kind) (fun _ : ι => accept kind) follow follow false bound := by
  have hfollow {kind'} (h : follow kind') : kind' ≠ kind := fun heq => hfollow (heq ▸ h)
  refine ⟨⟨[], false, fun t v ht => ⟨⟨t, v, rfl, ht⟩, fun _ => ?_⟩⟩, fun _ _ h => h, ?_⟩
  · exact accept_ok.mpr (.inr ⟨rfl, rfl, t, v, rfl, hfollow ht⟩)
  intro tokens hended _
  obtain ⟨t, v, rfl⟩ := List.exists_cons_of_ne_nil hended.ne_nil
  by_cases ht : t.kind = kind
  · have hrest : Ended v := hended.rest (w := [t]) (by simp [ht, hkind])
    obtain ⟨t', v', rfl⟩ := List.exists_cons_of_ne_nil hrest.ne_nil
    refine .takes (w := [t]) (a := true) rfl (by simp [ht, hkind]) nofun
      (accept_ok.mpr (.inl ⟨rfl, t, rfl, ht⟩)) ?_
    exact fun _ _ _ _ => accept_ok.mpr (.inl ⟨rfl, t, rfl, ht⟩)
  · refine .takes (w := []) (a := false) rfl inside_nil nofun
      (accept_ok.mpr (.inr ⟨rfl, rfl, t, v, rfl, ht⟩)) fun _ t' v' ht' => ?_
    refine accept_ok.mpr (.inr ⟨rfl, rfl, t', v', rfl, ?_⟩)
    rcases ht' with rfl | ht'
    · exact ht
    · exact hfollow ht'

theorem skipSemicolons_append {w : List Token} {t : Token} (hw : ∀ t ∈ w, t.kind = .semicolon)
    (ht : t.kind ≠ .semicolon) (v : List Token) :
    skipSemicolons (w ++ t :: v) = .ok ((), t :: v) := by
  have hdrop : (w ++ t :: v).dropWhile (·.kind == .semicolon) = t :: v := by
    rw [List.dropWhile_append_of_pos (by simpa using hw),
      List.dropWhile_cons_of_neg (by simpa using ht)]
  rw [skipSemicolons, hdrop]

theorem viable_skipSemicolons (follow : Token.Kind → Prop) (hfollow : ¬ follow .semicolon) :
    Viable skipSemicolons (fun _ : ι => skipSemicolons) follow follow false bound := by
  have hfollow {kind} (h : follow kind) : kind ≠ .semicolon := fun heq => hfollow (heq ▸ h)
  refine ⟨⟨[], (), fun t v ht => ⟨⟨t, v, rfl, ht⟩, fun _ => ?_⟩⟩, fun _ _ h => h, ?_⟩
  · exact skipSemicolons_append (w := []) (by simp) (hfollow ht) v
  intro tokens hended _
  obtain ⟨w, t, v, rfl, hw, ht⟩ := hended.semicolons
  have hinside : Inside w := fun t ht => by simp [hw t ht]
  refine .takes rfl hinside nofun (skipSemicolons_append hw ht v) fun _ t' v' ht' => ?_
  rcases ht' with rfl | ht'
  · exact skipSemicolons_append hw ht v'
  · exact skipSemicolons_append hw (hfollow ht') v'

end

end Parser

end Script
