import Script.Path
import Mathlib.Data.List.Basic
import Mathlib.Data.List.TakeWhile

/-!
# Names on a path

A path is a row of names with slashes between them. Its parent has the same names but the last, or
all of them if it ends in a slash, and a name inside of it comes behind them.
-/

namespace Script.Path

/-! ## Components -/

theorem components_slash (t : Text) : components (Byte.slash :: t) = [] :: components t :=
  rfl

theorem components_cons {b : UInt8} (hb : b ≠ Byte.slash) (t : Text) :
    ∃ part rest, components t = part :: rest ∧ components (b :: t) = (b :: part) :: rest := by
  have hne : components t ≠ [] := by
    cases t with
    | nil => simp [components]
    | cons c t =>
      simp only [components, List.foldr_cons]
      split
      · simp
      · split <;> simp
  obtain ⟨part, rest, hrest⟩ := List.exists_cons_of_ne_nil hne
  refine ⟨part, rest, hrest, ?_⟩
  simp only [components, List.foldr_cons] at hrest ⊢
  rw [if_neg hb, hrest]

theorem components_append_slash (s t : Text) :
    components (s ++ Byte.slash :: t) = components s ++ components t := by
  induction s with
  | nil => rfl
  | cons b s ih =>
    by_cases hb : b = Byte.slash
    · subst hb
      rw [List.cons_append, components_slash, components_slash, ih, List.cons_append]
    · obtain ⟨part, rest, hs, hcons⟩ := components_cons hb s
      obtain ⟨part', rest', hs', hcons'⟩ := components_cons hb (s ++ Byte.slash :: t)
      rw [ih, hs, List.cons_append] at hs'
      obtain ⟨rfl, rfl⟩ := List.cons.inj hs'
      rw [List.cons_append, hcons, hcons', List.cons_append]

theorem components_of_slash_notMem {t : Text} (h : Byte.slash ∉ t) : components t = [t] := by
  induction t with
  | nil => rfl
  | cons b t ih =>
    obtain ⟨hb, ht⟩ := not_or.mp (mt List.mem_cons.mpr h)
    obtain ⟨part, rest, hrest, hcons⟩ := components_cons (Ne.symm hb) t
    rw [ih ht] at hrest
    obtain ⟨rfl, rfl⟩ := List.cons.inj hrest
    exact hcons

/-! ## Names -/

/-- The names on a path, in order. Dots are names too. -/
def names (path : Text) : List Text :=
  (components path).filter (!·.isEmpty)

theorem names_nil : names [] = [] :=
  rfl

theorem names_append_slash (s t : Text) : names (s ++ Byte.slash :: t) = names s ++ names t := by
  rw [names, components_append_slash, List.filter_append]
  rfl

theorem names_slash (t : Text) : names (Byte.slash :: t) = names t :=
  names_append_slash [] t

theorem names_concat_slash (t : Text) : names (t ++ [Byte.slash]) = names t := by
  rw [names_append_slash, names_nil, List.append_nil]

theorem names_of_slash_notMem {t : Text} (h : Byte.slash ∉ t) (hne : t ≠ []) : names t = [t] := by
  rw [names, components_of_slash_notMem h]
  exact List.filter_cons_of_pos (by simp [hne])

/-! ## Parts of a path -/

theorem slash_notMem_fileName (path : Text) : Byte.slash ∉ fileName path := by
  intro h
  have hmem := List.mem_takeWhile_imp (List.mem_reverse.mp h)
  simp at hmem

theorem dropName_append_fileName (path : Text) : dropName path ++ fileName path = path := by
  rw [dropName, fileName, ← List.reverse_append, List.takeWhile_append_dropWhile,
    List.reverse_reverse]

theorem dropName_eq (path : Text) :
    dropName path = [] ∨ ∃ s, dropName path = s ++ [Byte.slash] := by
  rw [dropName]
  cases hrest : path.reverse.dropWhile (· != Byte.slash) with
  | nil => exact .inl rfl
  | cons b rest =>
    have hne : path.reverse.dropWhile (· != Byte.slash) ≠ [] := by simp [hrest]
    have hb := List.head_dropWhile_not (· != Byte.slash) hne
    simp only [hrest, List.head_cons, bne_eq_false_iff_eq] at hb
    exact .inr ⟨rest.reverse, by rw [List.reverse_cons, hb]⟩

theorem dropSlashes_append (path : Text) :
    ∃ n, path = dropSlashes path ++ List.replicate n Byte.slash := by
  have hslashes : ∀ b ∈ path.reverse.takeWhile (· == Byte.slash), b = Byte.slash := by
    intro b hb
    have hslash := List.mem_takeWhile_imp (p := (· == Byte.slash)) hb
    exact beq_iff_eq.mp hslash
  refine ⟨(path.reverse.takeWhile (· == Byte.slash)).length, ?_⟩
  rw [← List.reverse_replicate, ← List.eq_replicate_of_mem hslashes, dropSlashes,
    ← List.reverse_append, List.takeWhile_append_dropWhile, List.reverse_reverse]

theorem names_dropSlashes (path : Text) : names (dropSlashes path) = names path := by
  have hslashes (t : Text) (n : Nat) : names (t ++ List.replicate n Byte.slash) = names t := by
    induction n with
    | zero => rw [List.replicate_zero, List.append_nil]
    | succ n ih => rw [List.replicate_succ', ← List.append_assoc, names_concat_slash, ih]
  obtain ⟨n, hn⟩ := dropSlashes_append path
  conv => rhs; rw [hn]
  exact (hslashes _ n).symm

theorem names_eq_dropName (path : Text) :
    names path = names (dropName path) ++ names (fileName path) := by
  conv => lhs; rw [← dropName_append_fileName path]
  rcases dropName_eq path with hnil | ⟨s, hs⟩
  · rw [hnil]
    rfl
  · rw [hs, List.append_assoc, List.singleton_append, names_append_slash, names_concat_slash]

/-! ## The parent -/

theorem mem_of_mem_dropSlashes {b : UInt8} {path : Text} (h : b ∈ dropSlashes path) : b ∈ path := by
  obtain ⟨n, hn⟩ := dropSlashes_append path
  rw [hn]
  exact List.mem_append_left _ h

theorem mem_of_mem_dropName {b : UInt8} {path : Text} (h : b ∈ dropName path) : b ∈ path := by
  rw [← dropName_append_fileName path]
  exact List.mem_append_left _ h

theorem length_dropSlashes_le (path : Text) : (dropSlashes path).length ≤ path.length := by
  obtain ⟨n, hn⟩ := dropSlashes_append path
  conv => rhs; rw [hn, List.length_append]
  exact Nat.le_add_right _ _

theorem dropSlashes_concat_slash (t : Text) : dropSlashes (t ++ [Byte.slash]) = dropSlashes t := by
  rw [dropSlashes, List.reverse_append, List.reverse_singleton, List.singleton_append,
    List.dropWhile_cons_of_pos (by simp)]
  rfl

theorem exists_of_isAbsolute {path : Text} (h : isAbsolute path = true) :
    ∃ t, path = Byte.slash :: t := by
  cases path with
  | nil => cases h
  | cons b t =>
    obtain rfl : b = Byte.slash := by simpa [isAbsolute] using h
    exact ⟨t, rfl⟩

/-- What an absolute path begins with is absolute too, unless it is empty. -/
theorem isAbsolute_of_append {s t : Text} (h : isAbsolute (s ++ t) = true) (hne : s ≠ []) :
    isAbsolute s = true := by
  obtain ⟨b, s, rfl⟩ := List.exists_cons_of_ne_nil hne
  exact h

theorem parent_of_slashes {path : Text} (h : dropSlashes path = []) : parent path = path := by
  rw [parent, if_pos (by simp [h])]

theorem parent_of_absolute {path : Text} (h : isAbsolute path = true)
    (hne : dropSlashes path ≠ []) :
    parent path = if dropSlashes (dropName path) = [] then [Byte.slash]
      else dropSlashes (dropName path) := by
  rw [parent, if_neg (by simpa using hne)]
  simp [h]

/-- One step up from an absolute path: the root is its own parent, and any other parent is shorter
and has the names before the last one. -/
structure StepsUp (path : Text) : Prop where
  shorter : (parent path).length < path.length
  absolute : isAbsolute (parent path) = true
  bytes : ∀ b ∈ parent path, b ∈ path
  names_eq : names path = names (parent path) ++ names (fileName path)

theorem stepsUp_of_name {path : Text} (h : isAbsolute path = true) (hne : dropSlashes path ≠ []) :
    StepsUp path := by
  have hparent := parent_of_absolute h hne
  have hnames := names_eq_dropName path
  by_cases hrest : dropSlashes (dropName path) = []
  · rw [if_pos hrest] at hparent
    rw [← names_dropSlashes (dropName path), hrest] at hnames
    obtain ⟨t, rfl⟩ := exists_of_isAbsolute h
    refine ⟨?_, hparent ▸ rfl, ?_, ?_⟩
    · cases t with
      | nil => exact absurd rfl hne
      | cons b t =>
        rw [hparent]
        simp
    · rw [hparent]
      simp
    · rw [hnames, hparent]
      rfl
  · rw [if_neg hrest] at hparent
    have hdrop := dropName_eq path
    rcases hdrop with hnil | ⟨s, hs⟩
    · rw [hnil] at hrest
      exact absurd rfl hrest
    · have hpath := dropName_append_fileName path
      have hlength := congrArg List.length hpath
      rw [hs, List.length_append, List.length_append, List.length_singleton] at hlength
      obtain ⟨n, hn⟩ := dropSlashes_append (dropName path)
      refine ⟨?_, ?_, ?_, ?_⟩
      · have hle := length_dropSlashes_le s
        rw [hparent, hs, dropSlashes_concat_slash]
        omega
      · rw [hparent]
        rw [← hpath, hn, List.append_assoc] at h
        exact isAbsolute_of_append h hrest
      · rw [hparent]
        exact fun b hb => mem_of_mem_dropName (mem_of_mem_dropSlashes hb)
      · rw [hparent, names_dropSlashes]
        exact hnames

theorem stepsUp_or_root {path : Text} (h : isAbsolute path = true) :
    StepsUp path ∨ parent path = path ∧ names path = [] := by
  by_cases hne : dropSlashes path = []
  · refine .inr ⟨parent_of_slashes hne, ?_⟩
    rw [← names_dropSlashes, hne]
    rfl
  · exact .inl (stepsUp_of_name h hne)

/-- A parent that is shorter is neither the path itself nor empty. -/
theorem StepsUp.goes_on {path : Text} (h : StepsUp path) :
    ¬ (decide (parent path = path) || (parent path).isEmpty) = true := by
  have hshorter := h.shorter
  have hne : parent path ≠ path := fun heq => by
    rw [heq] at hshorter
    omega
  obtain ⟨t, ht⟩ := exists_of_isAbsolute h.absolute
  rw [decide_eq_false hne, ht]
  simp

/-! ## Names inside a directory -/

/-- There is a slash in front of a name in a directory, which may be the last byte of the
directory. -/
theorem child_cases (directory name : Text) :
    directory = [] ∧ child directory name = name ∨
      ∃ s, names s = names directory ∧ child directory name = s ++ Byte.slash :: name := by
  rcases List.eq_nil_or_concat' directory with rfl | ⟨s, b, rfl⟩
  · exact .inl ⟨rfl, rfl⟩
  · refine .inr ?_
    by_cases hb : b = Byte.slash
    · subst hb
      refine ⟨s, by rw [names_concat_slash], ?_⟩
      rw [child, if_pos (by simp), List.append_assoc, List.singleton_append]
    · refine ⟨s ++ [b], rfl, ?_⟩
      rw [child, if_neg (by simp [hb]), List.append_assoc, List.singleton_append]

theorem names_child (directory name : Text) :
    names (child directory name) = names directory ++ names name := by
  rcases child_cases directory name with ⟨rfl, hchild⟩ | ⟨s, hs, hchild⟩
  · rw [hchild]
    rfl
  · rw [hchild, names_append_slash, hs]

/-- The components of a path to a name inside a directory end in that name. -/
theorem components_child (directory : Text) {name : Text} (h : Byte.slash ∉ name) :
    ∃ parts, components (child directory name) = parts ++ [name] ∧
      parts.filter (!·.isEmpty) = names directory := by
  rcases child_cases directory name with ⟨rfl, hchild⟩ | ⟨s, hs, hchild⟩
  · exact ⟨[], by rw [hchild, components_of_slash_notMem h]; rfl, rfl⟩
  · refine ⟨components s, ?_, hs⟩
    rw [hchild, components_append_slash, components_of_slash_notMem h]

theorem mem_child {b : UInt8} {directory name : Text} (h : b ∈ child directory name) :
    b ∈ directory ∨ b = Byte.slash ∨ b ∈ name := by
  unfold child at h
  split at h
  · exact (List.mem_append.mp h).imp_right .inr
  · simpa [or_assoc] using h

/-- A directory in front keeps a path absolute. -/
theorem isAbsolute_child {directory : Text} (h : isAbsolute directory = true) (name : Text) :
    isAbsolute (child directory name) = true := by
  obtain ⟨t, rfl⟩ := exists_of_isAbsolute h
  unfold child
  split <;> rfl

end Script.Path
