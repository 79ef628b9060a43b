import Script.Token.Listing
import Script.Proofs.WholeNumbers
import Mathlib.Data.List.Nodup
import Mathlib.Data.List.Forall2

/-!
# Token listings lose nothing

Two token lists with the same listing have the same tokens, up to the sources that their places
can quote. A listing is read from the front: an escaped text ends at the first quote that has no
backslash, and a number at the first byte that is no digit. A place is cut at its last two colons,
since a file name may have colons too.
-/

namespace Script

/-- What is written for a value ends where a byte shows the end, so that the value can be read off
the front of a text. -/
def EndedBy {α : Type} (b : UInt8) (write : α → Text) : Prop :=
  ∀ {x y : α} {r s : Text}, write x ++ b :: r = write y ++ b :: s → x = y ∧ r = s

/-! ## Escaped texts -/

/-- A byte is written as itself, or as a backslash and a letter that stands for it. -/
theorem escapeByte_cases (b : UInt8) :
    (b ≠ Byte.doubleQuote ∧ b ≠ Byte.backslash ∧ escapeByte b = [b]) ∨
      ∃ c, escapeByte b = [Byte.backslash, c] ∧ b = if c = 110 then Byte.newline else c := by
  unfold escapeByte
  split_ifs with hnewline hspecial
  · exact .inr ⟨110, rfl, hnewline⟩
  · refine .inr ⟨b, rfl, ?_⟩
    rcases hspecial with rfl | rfl <;> rfl
  · rw [not_or] at hspecial
    exact .inl ⟨hspecial.1, hspecial.2, rfl⟩

theorem escapeByte_append_inj {b c : UInt8} {r s : Text}
    (h : escapeByte b ++ r = escapeByte c ++ s) : b = c ∧ r = s := by
  rcases escapeByte_cases b with ⟨-, hb, hplain⟩ | ⟨x, hx, hb⟩ <;>
    rcases escapeByte_cases c with ⟨-, hc, hplain'⟩ | ⟨y, hy, hc⟩
  · rw [hplain, hplain'] at h
    exact List.cons.inj h
  · rw [hplain, hy] at h
    exact absurd (List.cons.inj h).1 hb
  · rw [hx, hplain'] at h
    exact absurd (List.cons.inj h).1.symm hc
  · rw [hx, hy] at h
    obtain ⟨rfl, hrest⟩ := List.cons.inj (List.cons.inj h).2
    exact ⟨hb.trans hc.symm, hrest⟩

theorem escapeByte_ne_quote (b : UInt8) (r s : Text) :
    escapeByte b ++ r ≠ Byte.doubleQuote :: s := by
  intro h
  rcases escapeByte_cases b with ⟨hb, -, hplain⟩ | ⟨x, hx, -⟩
  · rw [hplain] at h
    exact hb (List.cons.inj h).1
  · rw [hx] at h
    cases h

theorem escapeText_cons_append (b : UInt8) (t r : Text) :
    escapeText (b :: t) ++ r = escapeByte b ++ (escapeText t ++ r) := by
  rw [escapeText, List.flatMap_cons, List.append_assoc]
  rfl

theorem endedBy_escapeText : EndedBy Byte.doubleQuote escapeText := by
  intro t u r s h
  induction t generalizing u with
  | nil =>
    cases u with
    | nil => exact ⟨rfl, (List.cons.inj h).2⟩
    | cons c u =>
      rw [escapeText_cons_append] at h
      exact absurd h.symm (escapeByte_ne_quote c _ r)
  | cons b t ih =>
    cases u with
    | nil =>
      rw [escapeText_cons_append] at h
      exact absurd h (escapeByte_ne_quote b _ s)
    | cons c u =>
      rw [escapeText_cons_append, escapeText_cons_append] at h
      obtain ⟨rfl, htail⟩ := escapeByte_append_inj h
      obtain ⟨rfl, hrest⟩ := ih htail
      exact ⟨rfl, hrest⟩

/-! ## Cutting at a byte -/

/-- Two texts are cut alike at the first occurrence of a byte. -/
theorem cut_at_first {b : UInt8} {t u r s : Text} (ht : b ∉ t) (hu : b ∉ u)
    (h : t ++ b :: r = u ++ b :: s) : t = u ∧ r = s := by
  have hcut {v : Text} (hv : b ∉ v) (rest : Text) : (v ++ b :: rest).takeWhile (· != b) = v := by
    apply Lexeme.takeWhile_run
    · intro c hc
      exact bne_iff_ne.mpr fun hcb => hv (hcb ▸ hc)
    · simp
  have hfront : t = u := by
    rw [← hcut ht r, h, hcut hu s]
  subst hfront
  exact ⟨rfl, (List.cons.inj (List.append_cancel_left h)).2⟩

theorem cut_at_last {b : UInt8} {t u r s : Text} (hr : b ∉ r) (hs : b ∉ s)
    (h : t ++ b :: r = u ++ b :: s) : t = u ∧ r = s := by
  have hreverse : r.reverse ++ b :: t.reverse = s.reverse ++ b :: u.reverse := by
    simpa using congrArg List.reverse h
  obtain ⟨hback, hfront⟩ := cut_at_first (by simpa using hr) (by simpa using hs) hreverse
  exact ⟨List.reverse_injective hfront, List.reverse_injective hback⟩

/-! ## Kinds -/

theorem Token.Kind.mem_all (k : Token.Kind) : k ∈ Token.Kind.all := by
  cases k <;> decide

theorem Token.Kind.nodup_names : (Token.Kind.all.map fun k => Text.ofString k.name).Nodup := by
  decide +kernel

theorem Token.Kind.quote_notMem_name :
    ∀ k ∈ Token.Kind.all, Byte.doubleQuote ∉ Text.ofString k.name := by
  decide +kernel

theorem endedBy_kind : EndedBy Byte.doubleQuote fun k : Token.Kind => Text.ofString k.name := by
  intro k l r s h
  obtain ⟨hname, hrest⟩ := cut_at_first (Token.Kind.quote_notMem_name k k.mem_all)
    (Token.Kind.quote_notMem_name l l.mem_all) h
  exact ⟨List.inj_on_of_nodup_map Token.Kind.nodup_names k.mem_all l.mem_all hname, hrest⟩

/-! ## Integers -/

theorem Text.ofNat_injective {m n : Nat} (h : Text.ofNat m = Text.ofNat n) : m = n := by
  rw [← Text.digitsValue_ofNat m, h, Text.digitsValue_ofNat]

theorem Text.ofNat_ne_minus (n : Nat) (r : Text) : Text.ofNat n ≠ Byte.minus :: r := by
  intro h
  have hminus : Byte.minus ∈ Text.ofNat n := h ▸ List.mem_cons_self
  cases (Text.digits_ofNat n).2 _ hminus

theorem Text.ofInt_injective {m n : Int} (h : Text.ofInt m = Text.ofInt n) : m = n := by
  cases m with
  | ofNat m =>
    cases n with
    | ofNat n => rw [Text.ofNat_injective h]
    | negSucc n => exact absurd h (Text.ofNat_ne_minus m _)
  | negSucc m =>
    cases n with
    | ofNat n => exact absurd h.symm (Text.ofNat_ne_minus n _)
    | negSucc n => rw [Nat.succ.inj (Text.ofNat_injective (List.cons.inj h).2)]

theorem Text.notMem_ofInt {b : UInt8} (hdigit : Byte.isDigit b = false) (hminus : b ≠ Byte.minus)
    (n : Int) : b ∉ Text.ofInt n := by
  have hnat (k : Nat) : b ∉ Text.ofNat k := by
    intro hb
    rw [(Text.digits_ofNat k).2 b hb] at hdigit
    cases hdigit
  cases n with
  | ofNat k => exact hnat k
  | negSucc k => exact List.not_mem_cons_of_ne_of_not_mem hminus (hnat (k + 1))

theorem endedBy_ofInt {b : UInt8} (hdigit : Byte.isDigit b = false) (hminus : b ≠ Byte.minus) :
    EndedBy b Text.ofInt := by
  intro m n r s h
  obtain ⟨htext, hrest⟩ :=
    cut_at_first (Text.notMem_ofInt hdigit hminus m) (Text.notMem_ofInt hdigit hminus n) h
  exact ⟨Text.ofInt_injective htext, hrest⟩

/-! ## Places -/

/-- The colons before line and column are the last two, whatever the file is called. -/
theorem Location.eq_of_text {l l' : Location} (h : l.text = l'.text) :
    l.file = l'.file ∧ l.line = l'.line ∧ l.col = l'.col := by
  have hcolon (n : Int) : ':'.toUInt8 ∉ Text.ofInt n :=
    Text.notMem_ofInt (by decide) (by decide) n
  have hcut (l : Location) : l.text =
      (l.file ++ ':'.toUInt8 :: Text.ofInt l.line) ++ ':'.toUInt8 :: Text.ofInt l.col := by
    rw [Location.text, List.append_assoc l.file]
    exact List.append_assoc _ _ _
  rw [hcut, hcut] at h
  obtain ⟨hfront, hcol⟩ := cut_at_last (hcolon l.col) (hcolon l'.col) h
  obtain ⟨hfile, hline⟩ := cut_at_last (hcolon l.line) (hcolon l'.line) hfront
  exact ⟨hfile, Text.ofInt_injective hline, Text.ofInt_injective hcol⟩

/-! ## Tokens -/

/-- Two tokens that differ in nothing but the source that their places can quote. -/
structure Token.Matches (t u : Token) : Prop where
  kind : t.kind = u.kind
  value : t.value = u.value
  file : t.location.file = u.location.file
  line : t.location.line = u.location.line
  col : t.location.col = u.location.col
  length : t.location.length = u.location.length

namespace Token

theorem Matches.listingItem_eq {t u : Token} (h : t.Matches u) : t.listingItem = u.listingItem := by
  simp only [listingItem, record, Location.text, h.kind, h.value, h.file, h.line, h.col, h.length]

/-- The fields of a token can be read off the front of a text, one after the other. -/
theorem matches_of_listingItem {t u : Token} {r s : Text}
    (h : t.listingItem ++ r = u.listingItem ++ s) : t.Matches u ∧ r = s := by
  simp only [listingItem, record, List.append_assoc] at h
  obtain ⟨hkind, h⟩ := endedBy_kind (List.append_cancel_left (List.append_cancel_left h))
  obtain ⟨hvalue, h⟩ := endedBy_escapeText (List.append_cancel_left (List.append_cancel_left h))
  obtain ⟨hplace, h⟩ := endedBy_escapeText (List.append_cancel_left (List.append_cancel_left h))
  obtain ⟨hlength, h⟩ := endedBy_ofInt (b := Byte.newline) (by decide) (by decide)
    (List.append_cancel_left (List.append_cancel_left h))
  obtain ⟨hfile, hline, hcol⟩ := Location.eq_of_text hplace
  exact ⟨⟨hkind, hvalue, hfile, hline, hcol, hlength⟩, List.append_cancel_left h⟩

/-! ## Listings -/

/-- What stands in a listing behind its first token. -/
def listingTail : List Token → Text
  | [] => "\n]\n"
  | t :: tokens => ",\n" ++ (t.listingItem ++ listingTail tokens)

theorem join_listingItems (t : Token) (tokens : List Token) :
    Text.join ",\n" ((t :: tokens).map listingItem) ++ "\n]\n" =
      t.listingItem ++ listingTail tokens := by
  induction tokens generalizing t with
  | nil => rw [List.map_singleton, Text.join, List.intercalate_singleton, listingTail]
  | cons u tokens ih =>
    rw [List.map_cons, List.map_cons, Text.join, List.intercalate_cons_cons, ← List.map_cons,
      ← Text.join, List.append_assoc, ih, List.append_assoc, listingTail]

theorem listing_cons (t : Token) (tokens : List Token) :
    listing (t :: tokens) = "[\n" ++ (t.listingItem ++ listingTail tokens) := by
  rw [← join_listingItems, listing, List.append_assoc]
  exact List.cons_ne_nil t tokens

theorem listingTail_eq_iff (a b : List Token) :
    listingTail a = listingTail b ↔ List.Forall₂ Matches a b := by
  induction a generalizing b with
  | nil =>
    cases b with
    | nil => exact iff_of_true rfl .nil
    | cons u b => exact iff_of_false (fun h => by cases h) (fun h => by cases h)
  | cons t a ih =>
    cases b with
    | nil => exact iff_of_false (fun h => by cases h) (fun h => by cases h)
    | cons u b =>
      rw [List.forall₂_cons, ← ih b]
      constructor
      · intro h
        exact matches_of_listingItem (List.append_cancel_left h)
      · rintro ⟨hfirst, hrest⟩
        rw [listingTail, listingTail, hfirst.listingItem_eq, hrest]

end Token

/-- Two token lists have the same listing exactly if they are equally long and their tokens agree,
one by one, in kind, value, file, line, column and length. -/
theorem listing_determines_tokens (a b : List Token) :
    Token.listing a = Token.listing b ↔ List.Forall₂ Token.Matches a b := by
  cases a with
  | nil =>
    cases b with
    | nil => exact iff_of_true rfl .nil
    | cons u b =>
      rw [Token.listing_cons]
      exact iff_of_false (fun h => by cases h) (fun h => by cases h)
  | cons t a =>
    cases b with
    | nil =>
      rw [Token.listing_cons]
      exact iff_of_false (fun h => by cases h) (fun h => by cases h)
    | cons u b =>
      rw [Token.listing_cons, Token.listing_cons, List.forall₂_cons, ← Token.listingTail_eq_iff]
      constructor
      · intro h
        exact Token.matches_of_listingItem (List.append_cancel_left h)
      · rintro ⟨hfirst, hrest⟩
        rw [hfirst.listingItem_eq, hrest]

end Script
