import Script.CommandLine
import Script.Proofs.Paths
import Mathlib.Data.List.Induction

/-!
# The project around a directory

The search for a project goes up a path as it is written. It visits every directory that encloses
the one it starts in, from the inside out, but where the path has a `..` it visits other
directories in between. So what it finds is the nearest enclosing project if the path has no `..`,
and in any case if it encloses the start at all; and if it finds nothing, no directory around the
start is a project.
-/

namespace Script

open CommandLine

/-- A name that an entry of a directory can have. -/
structure Path.IsName (name : Text) : Prop where
  ne_nil : name ≠ []
  ne_dot : name ≠ "."
  ne_up : name ≠ ".."
  slash_notMem : Byte.slash ∉ name
  nul_notMem : 0 ∉ name

namespace Disk

variable {d : Disk} {a b place next : List Text}

def IsDirectory (d : Disk) (place : List Text) : Prop :=
  ∃ entries, d.root.find? place = some (.directory entries)

/-- A directory with a project file in it. -/
def HasProject (d : Disk) (place : List Text) : Prop :=
  ∃ entries, d.root.find? place = some (.directory entries) ∧
    Table.contains entries projectFile = true

theorem HasProject.isDirectory (h : d.HasProject place) : d.IsDirectory place := by
  obtain ⟨entries, hplace, -⟩ := h
  exact ⟨entries, hplace⟩

/-! ## Walks -/

/-- Where a row of names leads from a place. -/
def walk (d : Disk) (place : List Text) (row : List Text) : Option (List Text) :=
  row.foldlM d.follow place

theorem walk_nil (d : Disk) (place : List Text) : d.walk place [] = some place :=
  rfl

theorem walk_cons (d : Disk) (place : List Text) (name : Text) (row : List Text) :
    d.walk place (name :: row) = (d.follow place name).bind (d.walk · row) := by
  rw [walk, List.foldlM_cons]
  rfl

theorem walk_append (d : Disk) (place row row' : List Text) :
    d.walk place (row ++ row') = (d.walk place row).bind (d.walk · row') := by
  rw [walk, List.foldlM_append]
  rfl

theorem walk_concat (d : Disk) (place row : List Text) (name : Text) :
    d.walk place (row ++ [name]) = (d.walk place row).bind (d.follow · name) := by
  rw [walk_append]
  congr 1
  funext middle
  rw [walk_cons]
  cases d.follow middle name <;> rfl

/-- A step leads nowhere else, one level up or one level down. -/
theorem follow_cases {name : Text} (h : d.follow place name = some next) :
    d.IsDirectory place ∧
      (next = place ∨ name = ".." ∧ next = place.dropLast ∨ next = place ++ [name]) := by
  unfold follow at h
  split at h
  next entries hplace =>
    refine ⟨⟨entries, hplace⟩, ?_⟩
    split at h
    · exact .inl (Option.some.inj h).symm
    split at h
    next hup => exact .inr (.inl ⟨hup, (Option.some.inj h).symm⟩)
    split at h
    · exact .inr (.inr (Option.some.inj h).symm)
    · cases h
  next => cases h

theorem follow_empty (h : d.IsDirectory place) : d.follow place [] = some place := by
  obtain ⟨entries, hplace⟩ := h
  simp [follow, hplace]

theorem isDirectory_of_walk {row : List Text} (h : d.walk place row = some next)
    (hnext : d.IsDirectory next) : d.IsDirectory place := by
  cases row with
  | nil =>
    cases h
    exact hnext
  | cons name row =>
    rw [walk_cons] at h
    obtain ⟨middle, hfollow, -⟩ := Option.bind_eq_some_iff.mp h
    exact (follow_cases hfollow).1

/-- Empty components change nothing on the way to a directory. -/
theorem walk_filter {row : List Text} (hnext : d.IsDirectory next) :
    d.walk place (row.filter (!·.isEmpty)) = some next ↔ d.walk place row = some next := by
  induction row generalizing place with
  | nil => rfl
  | cons name row ih =>
    by_cases hname : name = []
    · subst hname
      rw [List.filter_cons_of_neg (by simp), walk_cons, ih]
      constructor
      · intro h
        rw [follow_empty (isDirectory_of_walk h hnext)]
        exact h
      · intro h
        obtain ⟨middle, hfollow, -⟩ := Option.bind_eq_some_iff.mp h
        rw [follow_empty (follow_cases hfollow).1] at h
        exact h
    · rw [List.filter_cons_of_pos (by simp [hname]), walk_cons, walk_cons]
      cases d.follow place name with
      | none => rfl
      | some middle => exact ih

/-- A walk that goes from one place to another passes every place that encloses the second one and
is at least as deep as the first. -/
theorem exists_walk_to {row : List Text} (h : d.walk a row = some place) (hb : b <+: place)
    (hlength : a.length ≤ b.length) : ∃ row', row' <+: row ∧ d.walk a row' = some b := by
  induction row using List.reverseRecOn generalizing place with
  | nil =>
    cases h
    obtain rfl := hb.eq_of_length_le hlength
    exact ⟨[], List.nil_prefix, rfl⟩
  | append_singleton row name ih =>
    have hinitial : row <+: row ++ [name] := List.prefix_append row [name]
    obtain ⟨middle, hwalk, hfollow⟩ := Option.bind_eq_some_iff.mp (walk_concat d a row name ▸ h)
    -- Only a step down leads to a place that was not enclosed before.
    have hback (hmiddle : b <+: middle) :
        ∃ row', row' <+: row ++ [name] ∧ d.walk a row' = some b := by
      obtain ⟨row', hrow', hreached⟩ := ih hwalk hmiddle
      exact ⟨row', hrow'.trans hinitial, hreached⟩
    rcases (follow_cases hfollow).2 with rfl | ⟨-, rfl⟩ | rfl
    · exact hback hb
    · exact hback (hb.trans <| List.dropLast_prefix middle)
    · rcases List.prefix_concat_iff.mp hb with rfl | hmiddle
      · exact ⟨row ++ [name], List.prefix_rfl, h⟩
      · exact hback hmiddle

/-- Without `..` a walk only goes deeper. -/
theorem prefix_of_walk {row : List Text} (h : d.walk a row = some place)
    (hup : Text.ofString ".." ∉ row) : a <+: place := by
  induction row generalizing a with
  | nil =>
    cases h
    exact List.prefix_rfl
  | cons name row ih =>
    obtain ⟨hname, hrow⟩ := not_or.mp (mt List.mem_cons.mpr hup)
    rw [walk_cons] at h
    obtain ⟨middle, hfollow, hwalk⟩ := Option.bind_eq_some_iff.mp h
    have hrest := ih hwalk hrow
    rcases (follow_cases hfollow).2 with rfl | ⟨rfl, -⟩ | rfl
    · exact hrest
    · exact absurd rfl hname
    · exact (List.prefix_append a [name]).trans hrest

/-! ## Paths -/

theorem beforeNul_of_notMem {path : Text} (h : 0 ∉ path) : path.beforeNul = path := by
  rw [Text.beforeNul, List.takeWhile_eq_self_iff]
  intro b hb
  exact bne_iff_ne.mpr fun hzero => h (hzero ▸ hb)

theorem locate_of_isAbsolute {path : Text} (h : Path.isAbsolute path = true) (hnul : 0 ∉ path) :
    d.locate path = d.walk [] (Path.components path) := by
  obtain ⟨t, rfl⟩ := Path.exists_of_isAbsolute h
  rw [locate, beforeNul_of_notMem hnul]
  rfl

theorem follow_projectFile (d : Disk) (place : List Text) :
    (d.follow place projectFile).isSome = true ↔ d.HasProject place := by
  have hempty : projectFile.isEmpty = false := by decide
  have hdot : projectFile ≠ "." := by decide
  have hup : projectFile ≠ ".." := by decide
  unfold follow HasProject
  split
  next entries hplace =>
    simp only [hempty, hdot, hup, hplace, decide_false, Bool.or_false, Bool.false_eq_true, if_false,
      Option.some.injEq, Entry.directory.injEq, exists_eq_left']
    split <;> simp_all
  next hplace => simp_all

/-- The project file in a directory is there if the names of the path lead to a directory that has
one. -/
theorem locate_projectFile {path : Text} (h : Path.isAbsolute path = true) (hnul : 0 ∉ path) :
    (d.locate (Path.child path projectFile)).isSome = true ↔
      ∃ a, d.walk [] (Path.names path) = some a ∧ d.HasProject a := by
  have hslash : Byte.slash ∉ projectFile := by decide
  obtain ⟨parts, hparts, hnames⟩ := Path.components_child path hslash
  have hnul' : 0 ∉ Path.child path projectFile := by
    intro hmem
    rcases Path.mem_child hmem with hpath | hslash | hname
    · exact hnul hpath
    · exact absurd hslash (by decide)
    · exact absurd hname (by decide)
  rw [locate_of_isAbsolute (Path.isAbsolute_child h _) hnul', hparts, walk_concat,
    ← hnames]
  constructor
  · intro hsome
    cases hwalk : d.walk [] parts with
    | none =>
      rw [hwalk] at hsome
      cases hsome
    | some a =>
      rw [hwalk] at hsome
      have hproject := (follow_projectFile d a).mp hsome
      exact ⟨a, (walk_filter hproject.isDirectory).mpr hwalk, hproject⟩
  · rintro ⟨a, hwalk, hproject⟩
    rw [(walk_filter hproject.isDirectory).mp hwalk]
    exact (follow_projectFile d a).mpr hproject

/-! ## The search -/

/-- A row of names that leads to a project. -/
def Marks (d : Disk) (row : List Text) : Prop :=
  ∃ a, d.walk [] row = some a ∧ d.HasProject a

/-- What a search along a row of names has to find: the path of the longest beginning of the row
that leads to a project, or nothing if there is none. -/
def Searched (d : Disk) (row : List Text) : Option Text → Prop
  | none => ∀ row', row' <+: row → ¬ d.Marks row'
  | some path => Path.isAbsolute path = true ∧ 0 ∉ path ∧ Path.names path <+: row ∧
      d.Marks (Path.names path) ∧ ∀ row', row' <+: row → d.Marks row' → row' <+: Path.names path

theorem Searched.mono {row row' : List Text} {found : Option Text} (h : d.Searched row found)
    (hinitial : row <+: row')
    (hnew : ∀ row'', row'' <+: row' → d.Marks row'' → row'' <+: row) : d.Searched row' found := by
  cases found with
  | none => exact fun row'' hrow'' hmarks => h row'' (hnew row'' hrow'' hmarks) hmarks
  | some path =>
    obtain ⟨habsolute, hnul, hnames, hmarks, hlongest⟩ := h
    refine ⟨habsolute, hnul, hnames.trans hinitial, hmarks, fun row'' hrow'' hmarks' => ?_⟩
    exact hlongest row'' (hnew row'' hrow'' hmarks') hmarks'

theorem projectRootFrom_succ (d : Disk) (n : Nat) (path : Text) :
    projectRootFrom d.files (n + 1) path =
      if (d.locate (Path.child path projectFile)).isSome = true then some path
      else if Path.parent path = path || (Path.parent path).isEmpty then none
      else projectRootFrom d.files n (Path.parent path) :=
  rfl

/-- One step of the search: a path that is no project and has a parent is searched if the parent
is. -/
theorem Searched.parent {path : Text} {found : Option Text} (h : Path.StepsUp path)
    (hpath : ¬ d.Marks (Path.names path))
    (hparent : d.Searched (Path.names (Path.parent path)) found) :
    d.Searched (Path.names path) found := by
  have hfile : Path.names (Path.fileName path) = [] ∨
      Path.names (Path.fileName path) = [Path.fileName path] := by
    by_cases hne : Path.fileName path = []
    · exact .inl (by rw [hne]; rfl)
    · exact .inr (Path.names_of_slash_notMem (Path.slash_notMem_fileName path) hne)
  refine hparent.mono (h.names_eq ▸ List.prefix_append _ _) fun row hrow hmarks => ?_
  rw [h.names_eq] at hrow
  rcases hfile with hfile | hfile
  · rwa [hfile, List.append_nil] at hrow
  · rw [hfile] at hrow
    rcases List.prefix_concat_iff.mp hrow with hall | hrow
    · rw [← hfile, ← h.names_eq] at hall
      exact absurd (hall ▸ hmarks) hpath
    · exact hrow

theorem searched_projectRootFrom {n : Nat} {path : Text} (h : Path.isAbsolute path = true)
    (hnul : 0 ∉ path) (hn : path.length < n) :
    d.Searched (Path.names path) (projectRootFrom d.files n path) := by
  induction n generalizing path with
  | zero => omega
  | succ n ih =>
    rw [projectRootFrom_succ]
    by_cases hpresent : (d.locate (Path.child path projectFile)).isSome = true
    · rw [if_pos hpresent]
      have hmarks := (locate_projectFile h hnul).mp hpresent
      exact ⟨h, hnul, List.prefix_rfl, hmarks, fun row hrow _ => hrow⟩
    · rw [if_neg hpresent]
      have hpath : ¬ d.Marks (Path.names path) := mt (locate_projectFile h hnul).mpr hpresent
      rcases Path.stepsUp_or_root h with hup | ⟨hroot, hnames⟩
      · rw [if_neg hup.goes_on]
        have hshorter := hup.shorter
        exact Searched.parent hup hpath
          (ih hup.absolute (fun hmem => hnul (hup.bytes 0 hmem)) (by omega))
      · rw [if_pos (by simp [hroot])]
        intro row hrow hmarks
        rw [hnames] at hrow hpath
        obtain rfl := List.prefix_nil.mp hrow
        exact hpath hmarks

/-- A search ends by itself: with more steps it finds the same. -/
theorem projectRootFrom_of_length_lt {n m : Nat} {path : Text} (h : Path.isAbsolute path = true)
    (hn : path.length < n) (hm : path.length < m) :
    projectRootFrom d.files n path = projectRootFrom d.files m path := by
  induction n generalizing m path with
  | zero => omega
  | succ n ih =>
    cases m with
    | zero => omega
    | succ m =>
      rw [projectRootFrom_succ, projectRootFrom_succ]
      rcases Path.stepsUp_or_root h with hup | ⟨hroot, -⟩
      · have hshorter := hup.shorter
        rw [if_neg hup.goes_on, if_neg hup.goes_on, ih (m := m) hup.absolute (by omega) (by omega)]
      · have hstop : (decide (Path.parent path = path) || (Path.parent path).isEmpty) = true := by
          simp [hroot]
        rw [if_pos hstop, if_pos hstop]

/-! ## The working directory -/

theorem find?_append (e : Entry) (p q : List Text) :
    e.find? (p ++ q) = (e.find? p).bind (·.find? q) := by
  induction p generalizing e with
  | nil => cases e <;> rfl
  | cons name p ih =>
    cases e with
    | file content => rfl
    | directory entries =>
      simp only [List.cons_append, Entry.find?]
      cases Table.get? entries name with
      | none => rfl
      | some e => exact ih e

theorem follow_of_isName {name : Text} (h : Path.IsName name)
    (hfound : d.IsDirectory (place ++ name :: next)) :
    d.follow place name = some (place ++ [name]) := by
  obtain ⟨entries, hentries⟩ := hfound
  rw [find?_append] at hentries
  obtain ⟨e, hplace, hrest⟩ := Option.bind_eq_some_iff.mp hentries
  cases e with
  | file content => cases hrest
  | directory entries' =>
    have hcontains : Table.contains entries' name = true := by
      simp only [Entry.find?] at hrest
      cases hget : Table.get? entries' name with
      | none =>
        rw [hget] at hrest
        cases hrest
      | some e => simp [Table.contains, hget]
    simp [follow, hplace, h.ne_nil, h.ne_dot, h.ne_up, hcontains]

/-- A row of proper names leads to the place that it names. -/
theorem walk_of_isDirectory {row : List Text} (hrow : ∀ name ∈ row, Path.IsName name)
    (h : d.IsDirectory (place ++ row)) : d.walk place row = some (place ++ row) := by
  induction row generalizing place with
  | nil => rw [List.append_nil, walk_nil]
  | cons name row ih =>
    obtain ⟨hname, hrow⟩ := List.forall_mem_cons.mp hrow
    have hsplit : place ++ name :: row = (place ++ [name]) ++ row := by simp
    rw [walk_cons, follow_of_isName hname h, Option.bind_some, hsplit]
    exact ih hrow (hsplit ▸ h)

/-- The working directory is a directory of the tree, with proper names on the way to it. -/
structure IsSettled (d : Disk) : Prop where
  isName : ∀ name ∈ d.working, Path.IsName name
  isDirectory : d.IsDirectory d.working

theorem names_join {row : List Text} (h : ∀ name ∈ row, Path.IsName name) :
    Path.names (Text.join [Byte.slash] row) = row := by
  induction row with
  | nil => rfl
  | cons name row ih =>
    obtain ⟨hname, hrow⟩ := List.forall_mem_cons.mp h
    have hone := Path.names_of_slash_notMem hname.slash_notMem hname.ne_nil
    cases row with
    | nil => rw [Text.join, List.intercalate_singleton, hone]
    | cons name' row =>
      rw [Text.join, List.intercalate_cons_cons, List.append_assoc, List.singleton_append,
        Path.names_append_slash, hone, ← Text.join, ih hrow]
      rfl

theorem names_pathOf {row : List Text} (h : ∀ name ∈ row, Path.IsName name) :
    Path.names (pathOf row) = row := by
  rw [pathOf, List.singleton_append, Path.names_slash, names_join h]

theorem nul_notMem_pathOf {row : List Text} (h : ∀ name ∈ row, Path.IsName name) :
    0 ∉ pathOf row := by
  rw [pathOf, List.singleton_append]
  refine List.not_mem_cons_of_ne_of_not_mem (by decide) ?_
  induction row with
  | nil => exact List.not_mem_nil
  | cons name row ih =>
    obtain ⟨hname, hrow⟩ := List.forall_mem_cons.mp h
    cases row with
    | nil =>
      rw [Text.join, List.intercalate_singleton]
      exact hname.nul_notMem
    | cons name' row =>
      rw [Text.join, List.intercalate_cons_cons, ← Text.join]
      simp only [List.mem_append, not_or]
      exact ⟨⟨hname.nul_notMem, by decide⟩, ih hrow⟩

/-! ## Starting points -/

/-- A path leads to a directory. -/
structure Names (d : Disk) (path : Text) (place : List Text) : Prop where
  nul_notMem : 0 ∉ path
  locate_eq : d.locate path = some place
  isDirectory : d.IsDirectory place

/-- The path that the search for the project around a path begins with. -/
def searchPath (d : Disk) (start : Text) : Text :=
  Path.absolute (pathOf d.working) start

theorem isAbsolute_searchPath (d : Disk) (start : Text) :
    Path.isAbsolute (d.searchPath start) = true := by
  rw [searchPath, Path.absolute]
  split
  next h => exact h
  next => exact Path.isAbsolute_child rfl start

theorem nul_notMem_searchPath {start : Text} (hd : d.IsSettled) (h : 0 ∉ start) :
    0 ∉ d.searchPath start := by
  rw [searchPath, Path.absolute]
  split
  · exact h
  · intro hmem
    rcases Path.mem_child hmem with hworking | hslash | hstart
    · exact nul_notMem_pathOf hd.isName hworking
    · exact absurd hslash (by decide)
    · exact h hstart

theorem names_searchPath (hd : d.IsSettled) (start : Text) :
    Path.names (d.searchPath start) = d.start start ++ Path.names start := by
  rw [searchPath, Path.absolute, Disk.start]
  split
  · rfl
  · rw [Path.names_child, names_pathOf hd.isName]

/-- The names of the path that the search begins with lead to where the start does. -/
theorem walk_searchPath {start : Text} (hd : d.IsSettled) (h : d.Names start place) :
    d.walk [] (Path.names (d.searchPath start)) = some place := by
  have hstart : d.walk [] (d.start start) = some (d.start start) := by
    rw [Disk.start]
    split
    · rfl
    · exact walk_of_isDirectory hd.isName hd.isDirectory
  have hlocate := h.locate_eq
  rw [locate, beforeNul_of_notMem h.nul_notMem] at hlocate
  split at hlocate
  · cases hlocate
  · rw [names_searchPath hd, walk_append, hstart]
    exact (walk_filter h.isDirectory).mpr hlocate

theorem up_notMem_searchPath {start : Text} (hd : d.IsSettled)
    (h : Text.ofString ".." ∉ Path.components start) :
    Text.ofString ".." ∉ Path.names (d.searchPath start) := by
  rw [names_searchPath hd, List.mem_append, not_or]
  constructor
  · rw [Disk.start]
    split
    · exact List.not_mem_nil
    · exact fun hmem => (hd.isName _ hmem).ne_up rfl
  · exact fun hmem => h (List.mem_of_mem_filter hmem)

/-! ## The nearest project -/

/-- A project that encloses a place, or is the place itself, with no project in between. -/
structure IsNearestProject (d : Disk) (place a : List Text) : Prop where
  encloses : a <+: place
  hasProject : d.HasProject a
  between (b : List Text) : a <+: b → b <+: place → b ≠ a → ¬ d.HasProject b

/-- What a search around a place should find. -/
structure FindsNearest (d : Disk) (place : List Text) (found : Option Text) : Prop where
  eq_none_iff : found = none ↔ ∀ a, a <+: place → ¬ d.HasProject a
  of_some (path : Text) : found = some path →
    path ≠ [] ∧ ∃ a, d.locate path = some a ∧ d.IsNearestProject place a

theorem Searched.not_hasProject {row : List Text} (h : d.Searched row none)
    (hplace : d.walk [] row = some place) (ha : a <+: place) : ¬ d.HasProject a := by
  intro hproject
  obtain ⟨row', hrow', hwalk⟩ := exists_walk_to hplace ha (Nat.zero_le _)
  exact h row' hrow' ⟨a, hwalk, hproject⟩

theorem Searched.locate_eq {row : List Text} {path : Text} (h : d.Searched row (some path)) :
    ∃ a, d.walk [] (Path.names path) = some a ∧ d.locate path = some a ∧ d.HasProject a := by
  obtain ⟨habsolute, hnul, -, ⟨a, hwalk, hproject⟩, -⟩ := h
  refine ⟨a, hwalk, ?_, hproject⟩
  rw [locate_of_isAbsolute habsolute hnul]
  exact (walk_filter hproject.isDirectory).mp hwalk

/-- A project that is found is the nearest one if it encloses the place. -/
theorem Searched.isNearestProject {row : List Text} {path : Text} (h : d.Searched row (some path))
    (hplace : d.walk [] row = some place) (ha : d.walk [] (Path.names path) = some a)
    (hproject : d.HasProject a) (hencloses : a <+: place) : d.IsNearestProject place a := by
  obtain ⟨-, -, ⟨rest, hrest⟩, -, hlongest⟩ := h
  refine ⟨hencloses, hproject, fun b hab hb hne hb' => hne ?_⟩
  rw [← hrest, walk_append, ha, Option.bind_some] at hplace
  obtain ⟨rest', hrest', hwalk⟩ := exists_walk_to hplace hb hab.length_le
  have hmarks : d.Marks (Path.names path ++ rest') :=
    ⟨b, by rw [walk_append, ha, Option.bind_some, hwalk], hb'⟩
  have hinitial : Path.names path ++ rest' <+: row := by
    rw [← hrest]
    exact List.prefix_append_right_inj _ |>.mpr hrest'
  have hshort := (hlongest _ hinitial hmarks).length_le
  rw [List.length_append] at hshort
  obtain rfl : rest' = [] := List.eq_nil_of_length_eq_zero (by omega)
  exact (Option.some.inj hwalk).symm

theorem Searched.prefix_of_up_notMem {row : List Text} {path : Text}
    (h : d.Searched row (some path)) (hplace : d.walk [] row = some place)
    (ha : d.walk [] (Path.names path) = some a) (hup : Text.ofString ".." ∉ row) : a <+: place := by
  obtain ⟨-, -, ⟨rest, hrest⟩, -, -⟩ := h
  rw [← hrest, walk_append, ha, Option.bind_some] at hplace
  refine prefix_of_walk hplace fun hmem => hup ?_
  rw [← hrest]
  exact List.mem_append_right _ hmem

/-- A search that finds nothing, or a project that encloses the place, has found the right thing. -/
theorem Searched.findsNearest {row : List Text} {found : Option Text} (h : d.Searched row found)
    (hplace : d.walk [] row = some place)
    (hencloses : ∀ path a, found = some path → d.locate path = some a → a <+: place) :
    d.FindsNearest place found := by
  cases found with
  | none =>
    refine ⟨iff_of_true rfl fun a ha => h.not_hasProject hplace ha, fun path hpath => ?_⟩
    cases hpath
  | some path =>
    obtain ⟨a, hwalk, hlocate, hproject⟩ := h.locate_eq
    have ha := hencloses path a rfl hlocate
    refine ⟨iff_of_false (by simp) fun hnone => hnone a ha hproject, fun path' hpath' => ?_⟩
    obtain rfl := Option.some.inj hpath'
    obtain ⟨t, rfl⟩ := Path.exists_of_isAbsolute h.1
    exact ⟨List.cons_ne_nil _ _, a, hlocate, h.isNearestProject hplace hwalk hproject ha⟩

end Disk

/-- The search for the project around a directory ends by itself. It finds the nearest enclosing
project, or finds nothing if there is none, exactly if it does not come upon a project that does
not enclose the directory at all; this cannot happen if its start is written without `..`. -/
theorem project_search_finds_nearest {d : Disk} (hd : d.IsSettled) {start : Text}
    {place : List Text} (h : d.Names start place) :
    (∀ n, (d.searchPath start).length < n →
      projectRootFrom d.files n (d.searchPath start) = projectRoot d.files start) ∧
    (d.FindsNearest place (projectRoot d.files start) ↔
      ∀ path a, projectRoot d.files start = some path → d.locate path = some a → a <+: place) ∧
    (Text.ofString ".." ∉ Path.components start →
      d.FindsNearest place (projectRoot d.files start)) := by
  have habsolute := d.isAbsolute_searchPath start
  have hplace := Disk.walk_searchPath hd h
  have hsearched : d.Searched (Path.names (d.searchPath start)) (projectRoot d.files start) :=
    Disk.searched_projectRootFrom habsolute (Disk.nul_notMem_searchPath hd h.nul_notMem)
      (Nat.lt_succ_self _)
  refine ⟨?_, ⟨?_, ?_⟩, ?_⟩
  · exact fun n hn => Disk.projectRootFrom_of_length_lt habsolute hn (Nat.lt_succ_self _)
  · intro hfinds path a hfound hlocate
    obtain ⟨-, a', hlocate', hnearest⟩ := hfinds.of_some path hfound
    obtain rfl := Option.some.inj (hlocate.symm.trans hlocate')
    exact hnearest.encloses
  · exact hsearched.findsNearest hplace
  · intro hup
    refine hsearched.findsNearest hplace fun path a hfound hlocate => ?_
    rw [hfound] at hsearched
    obtain ⟨a', hwalk, hlocate', -⟩ := hsearched.locate_eq
    obtain rfl := Option.some.inj (hlocate.symm.trans hlocate')
    exact hsearched.prefix_of_up_notMem hplace hwalk (Disk.up_notMem_searchPath hd hup)

/-- From a directory below the working directory, written with a dot and a slash at its end, the
search finds the project in the working directory. -/
theorem project_above_found :
    let d : Disk :=
      ⟨.directory [("p", .directory [("em.json", .file []), ("q", .directory [])])], ["p"]⟩
    d.IsSettled ∧ d.Names "q/./" ["p", "q"] ∧
      projectRoot d.files "q/./" = some (Text.ofString "/p") ∧
      d.FindsNearest ["p", "q"] (projectRoot d.files "q/./") := by
  intro d
  have hname : Path.IsName "p" := ⟨by decide, by decide, by decide, by decide, by decide⟩
  have hsettled : d.IsSettled := ⟨by simpa [d] using hname, _, rfl⟩
  have hnames : d.Names "q/./" ["p", "q"] := ⟨by decide, by decide, _, rfl⟩
  have hfound : @Eq (Option Text) (projectRoot d.files "q/./") (some "/p") := by decide +kernel
  exact ⟨hsettled, hnames, hfound, (project_search_finds_nearest hsettled hnames).2.2 (by decide)⟩

/-- With `..` in its start the search goes down into a directory that the start has left again:
here it finds a project in `p/q`, though neither `p` nor the root has one. -/
theorem project_beside_found :
    let d : Disk := ⟨.directory [("p", .directory [("q", .directory [("em.json", .file [])])])], []⟩
    d.IsSettled ∧ d.Names "p/q/.." ["p"] ∧
      projectRoot d.files "p/q/.." = some (Text.ofString "/p/q") ∧
      (∀ a, a <+: [Text.ofString "p"] → ¬ d.HasProject a) ∧
      ¬ d.FindsNearest ["p"] (projectRoot d.files "p/q/..") := by
  intro d
  have hsettled : d.IsSettled := ⟨by simp [d], _, rfl⟩
  have hnames : d.Names "p/q/.." ["p"] := ⟨by decide, by decide, _, rfl⟩
  have hfound : @Eq (Option Text) (projectRoot d.files "p/q/..") (some "/p/q") := by decide +kernel
  have hnone : ∀ a, a <+: [Text.ofString "p"] → ¬ d.HasProject a := by
    rintro a ha ⟨entries, hentries, hcontains⟩
    have hcases : a = [] ∨ a = [Text.ofString "p"] := by
      rcases List.prefix_concat_iff.mp (show a <+: [] ++ [Text.ofString "p"] from ha) with h | h
      · exact .inr h
      · exact .inl (List.prefix_nil.mp h)
    rcases hcases with rfl | rfl
    · cases hentries
      cases hcontains
    · cases hentries
      cases hcontains
  refine ⟨hsettled, hnames, hfound, hnone, fun hfinds => ?_⟩
  have hempty := hfinds.eq_none_iff.mpr hnone
  rw [hfound] at hempty
  cases hempty

end Script
