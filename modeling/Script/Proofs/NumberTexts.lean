import Script.Proofs.DisplayedData
import Script.Proofs.Positions
import Mathlib.Algebra.Group.Nat.Defs

/-!
# Texts of numbers

What is shown for a finite number is a number literal, with a minus sign in front below zero.
Whether the digits are written as an integer, with a point or with an exponent, the literal needs
one digit at its start; for that the first significant digits must not round to zero.
-/

namespace Script

open Grammar

theorem Text.ofInt_of_nonneg {n : Int} (h : 0 ≤ n) : Text.ofInt n = Text.ofNat n.natAbs := by
  cases n with
  | ofNat k => rfl
  | negSucc k => omega

theorem Text.ofInt_of_neg {n : Int} (h : n < 0) :
    Text.ofInt n = Byte.minus :: Text.ofNat n.natAbs := by
  cases n with
  | ofNat k => exact absurd h (Int.not_lt.mpr (Int.natCast_nonneg k))
  | negSucc k => rfl

namespace Number

/-! ## Significant digits -/

theorem lt_pow_digitCount (n : Nat) : n < Nat.pow 10 (digitCount n) := by
  rw [digitCount, Text.ofNat, List.length_map]
  exact (Nat.length_toDigits_le_iff (by decide) Nat.length_toDigits_pos).mp (Nat.le_refl _)

theorem pow_le_of_digitCount {n k : Nat} (hn : 0 < n) (h : k < digitCount n) :
    Nat.pow 10 k ≤ n := by
  rw [digitCount, Text.ofNat, List.length_map] at h
  by_cases hk : k = 0
  · subst hk
    exact hn
  · by_contra hlt
    have hle := (Nat.length_toDigits_le_iff (b := 10) (by decide) (Nat.pos_of_ne_zero hk)).mpr
      (Nat.lt_of_not_le hlt)
    omega

/-- The decimal exponent does not exceed the fraction. -/
theorem pow_decimalExponent_le {num den : Nat} (hnum : 0 < num) (hden : 0 < den) :
    den * Nat.pow 10 (decimalExponent num den).toNat ≤
      num * Nat.pow 10 (-decimalExponent num den).toNat := by
  unfold decimalExponent
  split
  next hle =>
    have hquotient : 0 < num / den := Nat.div_pos hle hden
    have hcount : 0 < digitCount (num / den) := by
      rw [digitCount, Text.ofNat, List.length_map]
      exact Nat.length_toDigits_pos
    have hup : ((digitCount (num / den) : Int) - 1).toNat = digitCount (num / den) - 1 := by omega
    have hdown : (-((digitCount (num / den) : Int) - 1)).toNat = 0 := by omega
    rw [hup, hdown]
    calc den * Nat.pow 10 (digitCount (num / den) - 1)
      _ ≤ den * (num / den) :=
        Nat.mul_le_mul_left _ (pow_le_of_digitCount hquotient (by omega))
      _ ≤ num := Nat.mul_div_le num den
      _ = num * Nat.pow 10 0 := (Nat.mul_one num).symm
  next hlt =>
    -- With `c` the fraction `den / num` rounded up, `c ≤ 10 ^ k` for the count `k` of digits of
    -- `c - 1`.
    have hup : (-(digitCount ((den + num - 1) / num - 1) : Int)).toNat = 0 := by omega
    have hdown : (- -(digitCount ((den + num - 1) / num - 1) : Int)).toNat =
        digitCount ((den + num - 1) / num - 1) := by omega
    rw [hup, hdown]
    have hceiling : den ≤ num * ((den + num - 1) / num) := by
      have hmod := Nat.div_add_mod (den + num - 1) num
      have hrest := Nat.mod_lt (den + num - 1) hnum
      omega
    have hcount := lt_pow_digitCount ((den + num - 1) / num - 1)
    calc den * Nat.pow 10 0
      _ = den := Nat.mul_one den
      _ ≤ num * ((den + num - 1) / num) := hceiling
      _ ≤ num * Nat.pow 10 (digitCount ((den + num - 1) / num - 1)) :=
        Nat.mul_le_mul_left _ (by omega)

theorem roundDiv_pos {num den : Nat} (hden : 0 < den) (h : den ≤ num) : 0 < roundDiv num den := by
  have hquotient : 0 < num / den := Nat.div_pos h hden
  unfold roundDiv
  dsimp only
  split
  · exact hquotient
  · split <;> omega

/-- The first significant digits of a positive fraction are not all zero. -/
theorem significantDigits_pos {places num den : Nat} (hplaces : 0 < places) (hnum : 0 < num)
    (hden : 0 < den) : 0 < (significantDigits places num den).1 := by
  have hpow (k : Nat) : 0 < Nat.pow 10 k := Nat.pow_pos (by decide)
  have hexponent := pow_decimalExponent_le hnum hden
  have hround : 0 < roundDiv
      (num * Nat.pow 10 ((places : Int) - 1 - decimalExponent num den).toNat)
      (den * Nat.pow 10 (-((places : Int) - 1 - decimalExponent num den)).toNat) := by
    refine roundDiv_pos (Nat.mul_pos hden (hpow _)) ?_
    refine Nat.le_trans (Nat.mul_le_mul_left _ (Nat.pow_le_pow_right (by decide) ?_))
      (Nat.le_trans hexponent (Nat.mul_le_mul_left _ (Nat.pow_le_pow_right (by decide) ?_)))
    · omega
    · omega
  unfold significantDigits
  dsimp only
  split
  · exact hround
  next hlarge =>
    have hten : Nat.pow 10 1 ≤ Nat.pow 10 places := Nat.pow_le_pow_right (by decide) hplaces
    exact Nat.div_pos (Nat.le_trans hten (Nat.le_of_not_lt hlarge)) (by decide)

/-! ## Digits -/

theorem digits_paddedDigits (width n : Nat) : Digits (paddedDigits width n) := by
  obtain ⟨hne, hdigits⟩ := Text.digits_ofNat n
  refine ⟨by simp [paddedDigits, hne], ?_⟩
  intro b hb
  rcases List.mem_append.mp hb with hzero | hdigit
  · rw [List.eq_of_mem_replicate hzero]
    rfl
  · exact hdigits b hdigit

/-- Not all digits of a positive number are zeros. -/
theorem exists_nonzero_digit {n : Nat} (h : 0 < n) : ∃ b ∈ Text.ofNat n, b ≠ Byte.zero := by
  by_contra hall
  simp only [not_exists, not_and, not_not] at hall
  have hzeros : Text.ofNat n = List.replicate (Text.ofNat n).length Byte.zero :=
    List.eq_replicate_iff.mpr ⟨rfl, hall⟩
  have hvalue (k : Nat) : Text.digitsValue (List.replicate k Byte.zero) = 0 := by
    induction k with
    | zero => rfl
    | succ k ih => exact ih
  have hn := Text.digitsValue_ofNat n
  rw [hzeros, hvalue] at hn
  omega

theorem digits_trimZeros {n : Nat} (h : 0 < n) (width : Nat) :
    Digits (trimZeros (paddedDigits width n)) := by
  constructor
  · obtain ⟨b, hb, hne⟩ := exists_nonzero_digit h
    intro hnil
    rw [trimZeros, List.reverse_eq_nil_iff, List.dropWhile_eq_nil_iff] at hnil
    have hzero := hnil b (List.mem_reverse.mpr (List.mem_append_right _ hb))
    exact hne (beq_iff_eq.mp hzero)
  · intro b hb
    have hmem := (List.dropWhile_sublist _).mem (List.mem_reverse.mp hb)
    exact (digits_paddedDigits width n).2 b (List.mem_reverse.mp hmem)

/-! ## Literals -/

theorem isDigit_of_replicate {n : Nat} {b : UInt8} (h : b ∈ List.replicate n Byte.zero) :
    Byte.isDigit b = true := by
  rw [List.eq_of_mem_replicate h]
  rfl

theorem fraction_afterPoint {ds : Text} (h : ∀ b ∈ ds, Byte.isDigit b = true) :
    Fraction (afterPoint ds) := by
  unfold afterPoint
  split
  · exact .none
  next hne => exact .some ⟨by simpa using hne, h⟩

theorem exponent_exponentText (k : Int) : Exponent (exponentText k) := by
  have hdigits := digits_paddedDigits 2 k.natAbs
  unfold exponentText
  split
  · exact .some (.inl rfl) (.inr (.inr rfl)) hdigits
  · exact .some (.inl rfl) (.inr (.inl rfl)) hdigits

/-- What is written for a positive fraction is a literal in each of the three notations. -/
theorem numeral_significantText {places num den : Nat} (hplaces : 0 < places) (hnum : 0 < num)
    (hden : 0 < den) : Numeral (significantText places num den) := by
  have hpos := significantDigits_pos hplaces hnum hden
  unfold significantText
  rcases hsplit : significantDigits places num den with ⟨d, k⟩
  rw [hsplit] at hpos
  obtain ⟨hne, hdigits⟩ := digits_trimZeros hpos places
  dsimp only
  generalize trimZeros (paddedDigits places d) = ds at hne hdigits ⊢
  have htake (n : Nat) : Digits (ds.take (n + 1)) :=
    ⟨by simp [hne], fun b hb => hdigits b (List.mem_of_mem_take hb)⟩
  have hdrop (n : Nat) : Fraction (afterPoint (ds.drop n)) :=
    fraction_afterPoint fun b hb => hdigits b (List.mem_of_mem_drop hb)
  split
  · exact .intro (htake 0) (hdrop 1) (exponent_exponentText k)
  split
  · have hwhole : Digits [Byte.zero] := ⟨by simp, List.forall_mem_singleton.mpr rfl⟩
    have hpart : Digits (List.replicate ((-k).toNat - 1) Byte.zero ++ ds) :=
      ⟨by simp [hne], fun b hb => (List.mem_append.mp hb).elim isDigit_of_replicate (hdigits b)⟩
    have hnumeral := Numeral.intro hwhole (.some hpart) .none
    rw [List.append_nil] at hnumeral
    rw [List.append_assoc]
    exact hnumeral
  · have hwhole : Digits (ds.take (k.toNat + 1) ++
        List.replicate (k.toNat + 1 - ds.length) Byte.zero) :=
      ⟨by simp [hne], fun b hb => (List.mem_append.mp hb).elim ((htake _).2 b) isDigit_of_replicate⟩
    have hnumeral := Numeral.intro hwhole (hdrop (k.toNat + 1)) .none
    rwa [List.append_nil] at hnumeral

/-! ## Finite numbers -/

theorem magnitude_lt_of_finite {x : Number} (hnan : x.isNaN = false) (hinf : x.isInfinite = false) :
    x.magnitude < infinityBits := by
  simp only [isNaN, isInfinite, decide_eq_false_iff_not, beq_eq_false_iff_ne] at hnan hinf
  omega

/-- Below zero are the numbers with a sign bit, without the negative zero. -/
theorem less_zero_iff {x : Number} (hnan : x.isNaN = false) :
    x.less zero = true ↔ x.isNegative = true ∧ x.magnitude ≠ 0 := by
  rw [less_zero hnan, decide_eq_true_eq, rank]
  split
  next hneg => simp only [hneg, true_and]; omega
  next hneg => simp only [hneg, Bool.false_eq_true, false_and, iff_false]; omega

theorem fraction_pos {x : Number} (h : x.magnitude ≠ 0) : 0 < x.fraction.1 := by
  have hsignificand : 0 < x.significand := by
    have hunit : 0 < exponentUnit := by decide
    unfold significand
    split <;> omega
  exact Nat.mul_pos hsignificand (Nat.two_pow_pos _)

theorem integer_of_zero {x : Number} (hfinite : x.magnitude < infinityBits)
    (hzero : x.magnitude = 0) : x.integer? = some 0 := by
  have hfraction := fraction_of_zero hzero
  simp [integer?, isNaN_of_finite hfinite, isInfinite_of_finite hfinite, hfraction]

/-- An integer is below zero if the number is. -/
theorem less_zero_iff_of_integer {x : Number} {n : Int} (h : x.integer? = some n) :
    x.less zero = true ↔ n < 0 := by
  obtain ⟨hfinite, hvalue, hsign⟩ := integer_spec h
  have hden : 0 < x.fraction.2 := Nat.two_pow_pos _
  have hzero : x.magnitude = 0 ↔ n.natAbs = 0 := by
    constructor
    · intro hmagnitude
      rw [fraction_of_zero hmagnitude] at hvalue
      exact (Nat.mul_eq_zero.mp hvalue.symm).resolve_right (by omega)
    · intro hn
      by_contra hmagnitude
      have hpos := fraction_pos hmagnitude
      rw [hvalue, hn, Nat.zero_mul] at hpos
      omega
  rw [less_zero_iff (isNaN_of_finite hfinite), ne_eq, hzero]
  split at hsign
  next hneg => simp only [hneg, true_and]; omega
  next hneg => simp only [hneg, Bool.false_eq_true, false_and, false_iff]; omega

/-- A finite number is written as an integer, or with its significant digits if it is not zero. -/
theorem text_cases {x : Number} (hfinite : x.magnitude < infinityBits) :
    (∃ n, x.integer? = some n ∧ x.text = Text.ofInt n) ∨
      (x.magnitude ≠ 0 ∧ x.text = x.signText ++ significantText 15 x.fraction.1 x.fraction.2) := by
  have hnonzero {n : Int} (hn : x.integer? = some n) (hlarge : ¬ n.natAbs < Nat.pow 10 15) :
      x.magnitude ≠ 0 := by
    intro hzero
    cases hn.symm.trans (integer_of_zero hfinite hzero)
    exact hlarge (by decide)
  rw [text, isNaN_of_finite hfinite, isInfinite_of_finite hfinite, if_neg (by simp),
    if_neg (by simp)]
  cases hinteger : x.integer? with
  | none =>
    refine .inr ⟨fun hzero => ?_, rfl⟩
    cases hinteger.symm.trans (integer_of_zero hfinite hzero)
  | some n =>
    dsimp only
    split
    · exact .inl ⟨n, rfl, rfl⟩
    next hlarge => exact .inr ⟨hnonzero hinteger hlarge, rfl⟩

/-- The text of a finite number is a literal, behind a minus sign if the number is below zero. -/
theorem text_eq_literal {x : Number} (hfinite : x.magnitude < infinityBits) :
    ∃ numeral, Numeral numeral ∧
      x.text = if x.less zero then Byte.minus :: numeral else numeral := by
  have hden : 0 < x.fraction.2 := Nat.two_pow_pos _
  rcases text_cases hfinite with ⟨n, hn, htext⟩ | ⟨hne, htext⟩
  · refine ⟨Text.ofNat n.natAbs, Value.numeral_ofNat _, ?_⟩
    rw [htext]
    by_cases hneg : n < 0
    · rw [if_pos ((less_zero_iff_of_integer hn).mpr hneg), Text.ofInt_of_neg hneg]
    · rw [if_neg (mt (less_zero_iff_of_integer hn).mp hneg), Text.ofInt_of_nonneg (by omega)]
  · refine ⟨_, numeral_significantText (show 0 < 15 by decide) (fraction_pos hne) hden, ?_⟩
    rw [htext, signText]
    cases hneg : x.isNegative with
    | false =>
      rw [if_neg (by simp), if_neg (by simp [less_zero_iff (isNaN_of_finite hfinite), hneg])]
      rfl
    | true =>
      rw [if_pos rfl, if_pos ((less_zero_iff (isNaN_of_finite hfinite)).mpr ⟨hneg, hne⟩)]
      rfl

end Number

/-! ## Scanning a literal -/

theorem Position.advance_of_newline_notMem {w : Text} (h : Byte.newline ∉ w) (p : Position) :
    p.advance w = ⟨p.line, p.col + w.length⟩ := by
  induction w generalizing p with
  | nil => rfl
  | cons b w ih =>
    obtain ⟨hb, hw⟩ := not_or.mp (mt List.mem_cons.mpr h)
    have hstep : p.step b = ⟨p.line, p.col + 1⟩ := if_neg (Ne.symm hb)
    rw [Position.advance, List.foldl_cons, ← Position.advance, hstep, ih hw]
    rw [List.length_cons, Nat.add_assoc, Nat.add_comm 1]

namespace Token

/-- A token on the first line of a file, as long as its value. -/
def onFirstLine (file : Text) (source : Option Source) (col : Nat) (kind : Kind) (value : Text) :
    Token :=
  ⟨kind, value, locate (shownFile file) source ⟨1, col⟩ value.length⟩

theorem scanFrom_numeral {numeral : Text} (h : Numeral numeral) (file : Text)
    (source : Option Source) (col : Nat) :
    scanFrom (shownFile file) source ⟨1, col⟩ 0 numeral =
      .ok [onFirstLine file source col .number numeral,
        onFirstLine file source (col + numeral.length) .endOfInput []] := by
  have hend := Position.advance_of_newline_notMem h.newline_notMem ⟨1, col⟩
  obtain ⟨b, text, rfl⟩ := List.exists_cons_of_ne_nil h.ne_nil
  rw [Position.advance, List.foldl_cons, ← Position.advance] at hend
  have hnext : Lexeme.next b text = .ok (Lexeme.spelled .number (b :: text)) := by
    simpa using Lexeme.next_numeral h Lexeme.calm_nil
  have hrest := scanFrom_pending (shownFile file) source (Position.step ⟨1, col⟩ b) text []
  rw [List.append_nil, hend] at hrest
  simp only [scanFrom, hnext, Lexeme.spelled, List.length_cons, Nat.add_sub_cancel, hrest]
  rfl

/-- A text that can be scanned has no mark at its start. -/
theorem scan_of_scanFrom {file : Text} {source : Option Source} {text : Text} {tokens : List Token}
    (h : scanFrom (shownFile file) source {} 0 text = .ok tokens) :
    scan file source text = .ok tokens := by
  rw [scan, scanFrom_marked h]
  exact h

theorem scan_numeral {numeral : Text} (h : Numeral numeral) (file : Text)
    (source : Option Source) :
    scan file source numeral = .ok [onFirstLine file source 1 .number numeral,
      onFirstLine file source (1 + numeral.length) .endOfInput []] :=
  scan_of_scanFrom (scanFrom_numeral h file source 1)

theorem scan_minus_numeral {numeral : Text} (h : Numeral numeral) (file : Text)
    (source : Option Source) :
    scan file source (Byte.minus :: numeral) = .ok [onFirstLine file source 1 .minus [Byte.minus],
      onFirstLine file source 2 .number numeral,
      onFirstLine file source (2 + numeral.length) .endOfInput []] := by
  have hnext : Lexeme.next Byte.minus numeral = .ok (Lexeme.spelled .minus [Byte.minus]) :=
    Lexeme.next_single (by decide) (fun hslash => absurd hslash (by decide)) (.inl rfl)
  apply scan_of_scanFrom
  simp only [scanFrom, hnext, Lexeme.spelled]
  change Except.map _ (scanFrom (shownFile file) source ⟨1, 2⟩ 0 numeral) = _
  rw [scanFrom_numeral h]
  rfl

end Token

/-! ## Reading a literal again -/

namespace Number

theorem equal_self {x : Number} (h : x.isNaN = false) : x.equal x = true :=
  equal_eq_true.mpr ⟨h, h, rfl⟩

/-- The digits of an integer are read as a number that is equal to the one that was written, also
where this is the negative zero. -/
theorem equal_of_nonneg {x : Number} {n : Int} (h : x.integer? = some n)
    (hsmall : n.natAbs < Nat.pow 10 15) (hn : 0 ≤ n) :
    (ofText (Text.ofNat n.natAbs)).equal x = true := by
  obtain ⟨hfinite, -, hsign⟩ := integer_spec h
  have hnan := isNaN_of_finite hfinite
  cases hneg : x.isNegative with
  | false =>
    have hwhole : x.IsWhole n := ⟨h, hsmall, fun _ => hneg⟩
    rw [hwhole.ofText_of_nonneg hn]
    exact equal_self hnan
  | true =>
    rw [hneg, if_pos rfl] at hsign
    obtain rfl : n = 0 := by omega
    have hexact : x.IsExact 0 := ⟨h, by decide⟩
    have hzero := hexact.magnitude_of_zero
    have hrank : x.rank = 0 := by
      rw [← Int.natAbs_eq_zero, natAbs_rank, hzero]
    rw [hexact.ofText_natAbs, hzero]
    exact equal_eq_true.mpr ⟨by decide, hnan, hrank.symm⟩

theorem equal_of_neg {x : Number} {n : Int} (h : x.integer? = some n)
    (hsmall : n.natAbs < Nat.pow 10 15) (hn : n < 0) :
    (ofText (Text.ofNat n.natAbs)).neg.equal x = true := by
  obtain ⟨hfinite, -, -⟩ := integer_spec h
  have hwhole : x.IsWhole n := ⟨h, hsmall, fun hzero => absurd hzero (by omega)⟩
  rw [hwhole.neg_ofText_of_neg hn]
  exact equal_self (isNaN_of_finite hfinite)

end Number

/-- A list of tokens is a program of one expression, and wherever this is evaluated it yields a
number and changes nothing. -/
def Denotes (tokens : List Token) (y : Number) : Prop :=
  ∃ t e, Program.parse tokens = .ok ⟨t, [.expr e t]⟩ ∧
    ∀ (env : Env) (m : Machine), env.evalExpr e m = .done (.number y) m

theorem denotes_number {t last : Token} (ht : t.kind = .number) (hlast : last.kind = .endOfInput) :
    Denotes [t, last] (Number.ofText t.value) := by
  have hliteral : Expression .assignment [t] _ := (Expression.number ht).loosen (by decide)
  have hparse := Program.parse_expression hliteral hlast
  rw [List.singleton_append] at hparse
  exact ⟨t, _, hparse, fun _ _ => rfl⟩

theorem denotes_negated_number {minus t last : Token} (hminus : minus.kind = .minus)
    (ht : t.kind = .number) (hlast : last.kind = .endOfInput) :
    Denotes [minus, t, last] (Number.ofText t.value).neg := by
  have hliteral : Expression .unary [t] _ := (Expression.number ht).loosen (by decide)
  have hnegated : Expression .assignment [minus, t] _ :=
    (Expression.negate hminus hliteral).loosen (by decide)
  have hparse := Program.parse_expression hnegated hlast
  rw [List.cons_append, List.singleton_append] at hparse
  exact ⟨minus, _, hparse, fun _ _ => rfl⟩

/-- What is shown for a finite number scans to a single number, behind a minus sign if and only if
the number is below zero, and nothing of the text is left over. Read as a program, the text of an
integer below `10 ^ 15` yields a number that is equal to it. -/
theorem displayed_number_is_literal {x : Number} (hnan : x.isNaN = false)
    (hinf : x.isInfinite = false) (file : Text) (source : Option Source) :
    ∃ numeral tokens, Token.scan file source x.text = .ok tokens ∧
      (x.less .zero = false → x.text = numeral ∧
        tokens = [.onFirstLine file source 1 .number numeral,
          .onFirstLine file source (1 + numeral.length) .endOfInput []]) ∧
      (x.less .zero = true → x.text = Byte.minus :: numeral ∧
        tokens = [.onFirstLine file source 1 .minus [Byte.minus],
          .onFirstLine file source 2 .number numeral,
          .onFirstLine file source (2 + numeral.length) .endOfInput []]) ∧
      ∀ n, x.integer? = some n → n.natAbs < Nat.pow 10 15 →
        ∃ y, Denotes tokens y ∧ y.equal x = true := by
  have hfinite := Number.magnitude_lt_of_finite hnan hinf
  obtain ⟨numeral, hnumeral, htext⟩ := Number.text_eq_literal hfinite
  cases hless : x.less .zero with
  | false =>
    rw [hless, if_neg (by simp)] at htext
    refine ⟨numeral, _, htext ▸ Token.scan_numeral hnumeral file source, fun _ => ⟨htext, rfl⟩,
      fun hlt => absurd hlt Bool.false_ne_true, ?_⟩
    intro n hn hsmall
    have hnonneg : 0 ≤ n := by
      rw [← Int.not_lt, ← Number.less_zero_iff_of_integer hn, hless]
      simp
    have hdigits : numeral = Text.ofNat n.natAbs := by
      rw [← htext, Number.text_of_integer hn hsmall, Text.ofInt_of_nonneg hnonneg]
    refine ⟨_, denotes_number rfl rfl, ?_⟩
    rw [Token.onFirstLine, hdigits]
    exact Number.equal_of_nonneg hn hsmall hnonneg
  | true =>
    rw [hless, if_pos rfl] at htext
    refine ⟨numeral, _, htext ▸ Token.scan_minus_numeral hnumeral file source,
      fun hge => absurd hge.symm Bool.false_ne_true, fun _ => ⟨htext, rfl⟩, ?_⟩
    intro n hn hsmall
    have hneg : n < 0 := (Number.less_zero_iff_of_integer hn).mp hless
    have hdigits : numeral = Text.ofNat n.natAbs := by
      have hminus := htext.symm.trans (Number.text_of_integer hn hsmall)
      rw [Text.ofInt_of_neg hneg] at hminus
      exact (List.cons.inj hminus).2
    refine ⟨_, denotes_negated_number rfl rfl rfl, ?_⟩
    rw [Token.onFirstLine, hdigits]
    exact Number.equal_of_neg hn hsmall hneg

/-- The negative number that is nearest to zero, with an exponent, and the negative zero, which is
shown without its sign and read as a number that is equal to it. -/
theorem smallest_numbers_are_literals :
    let x : Number := ⟨0x8000000000000001⟩
    let z : Number := ⟨0x8000000000000000⟩
    (x.isNaN = false ∧ x.isInfinite = false ∧ x.text = "-4.94065645841247e-324" ∧
      Token.scan "n" none x.text = .ok [.onFirstLine "n" none 1 .minus "-",
        .onFirstLine "n" none 2 .number "4.94065645841247e-324",
        .onFirstLine "n" none 23 .endOfInput []]) ∧
    (z.isNaN = false ∧ z.isInfinite = false ∧ z.text = "0" ∧ ∃ tokens y,
      Token.scan "n" none z.text = .ok tokens ∧ Denotes tokens y ∧ y.equal z = true) := by
  intro x z
  have hx : x.text = "-4.94065645841247e-324" := by decide +kernel
  constructor
  · obtain ⟨numeral, tokens, hscan, -, hneg, -⟩ :=
      displayed_number_is_literal (x := x) (by decide) (by decide) "n" none
    obtain ⟨htext, rfl⟩ := hneg (by decide)
    obtain rfl : numeral = "4.94065645841247e-324" := (List.cons.inj (htext.symm.trans hx)).2
    exact ⟨by decide, by decide, hx, hscan⟩
  · obtain ⟨-, tokens, hscan, -, -, hread⟩ :=
      displayed_number_is_literal (x := z) (by decide) (by decide) "n" none
    obtain ⟨y, hy, hequal⟩ := hread 0 (by decide +kernel) (by decide)
    exact ⟨by decide, by decide, by decide +kernel, tokens, y, hscan, hy, hequal⟩

end Script
