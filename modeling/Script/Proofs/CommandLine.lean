import Script.CommandLine
import Script.Proofs.Sequence
import Script.Proofs.Steps

/-!
# What a command line asks for and how it ends

Words that ask for listings come first, then one word decides: it names the file, or closes the
options before the file, or is an option that ends the reading. All words after the file go to the
program as they are. Every reply has the exit code 0 and no errors or the exit code 1 and some, and
an error never takes back what the program has printed. Without a reply are only the programs that
do not come to an end, and the commands that come to writing or reading a project file.
-/

namespace Script.CommandLine

/-! ## Reading the words -/

/-- The words that ask for a listing in place of a run. -/
def listingWords : List Text := ["--tokens", "--ast"]

def versionWords : List Text := ["-v", "--version"]

def helpWords : List Text := ["-h", "--help"]

/-- The options with the listings that a row of words asks for. -/
def Options.listing (options : Options) (words : List Text) : Options :=
  { options with
    listTokens := options.listTokens || words.any (· = Text.ofString "--tokens")
    listProgram := options.listProgram || words.any (· = Text.ofString "--ast") }

/-- What the words ask for that come after those for listings. -/
inductive Names (options : Options) : List Text → Request → Prop
  | file {word : Text} {later : List Text} (hne : word ≠ [])
    (hword : word.head? ≠ some Byte.minus) : Names options (word :: later) (.run word later options)
  | closed {word : Text} {later : List Text} (hne : word ≠ []) :
    Names options ("--" :: word :: later) (.run word later options)
  | version {word : Text} {later : List Text} (hword : word ∈ versionWords) :
    Names options (word :: later) .showVersion
  | help {word : Text} {later : List Text} (hword : word ∈ helpWords) :
    Names options (word :: later) .showHelp
  | unknown {word : Text} {later : List Text} (hminus : word.head? = some Byte.minus)
    (hclosing : word ≠ "--") (hlisting : word ∉ listingWords) (hversion : word ∉ versionWords)
    (hhelp : word ∉ helpWords) : Names options (word :: later) (.unknownOption word)
  | nothing : Names options [] .noFile
  | nothingClosed : Names options ["--"] .noFile
  | empty {later : List Text} : Names options ([] :: later) .noFile
  | emptyClosed {later : List Text} : Names options ("--" :: [] :: later) .noFile

/-- What a command line that is no command asks for. -/
def Means (args : List Text) (request : Request) : Prop :=
  ∃ words rest, args = words ++ rest ∧ (∀ word ∈ words, word ∈ listingWords) ∧
    Names (Options.listing {} words) rest request

theorem Options.listing_cons (options : Options) (word : Text) (words : List Text) :
    options.listing (word :: words) = (options.listing [word]).listing words := by
  simp [Options.listing, Bool.or_assoc]

theorem Options.listing_nil (options : Options) : options.listing [] = options := by
  simp [Options.listing]

theorem readArguments_listing {word : Text} (h : word ∈ listingWords) (options : Options)
    (rest : List Text) :
    readArguments options (word :: rest) = readArguments (options.listing [word]) rest := by
  simp only [listingWords, List.mem_cons, List.not_mem_nil, or_false] at h
  rcases h with rfl | rfl
  · have hlisting : options.listing [Text.ofString "--tokens"] =
        { options with listTokens := true } := by
      simp [Options.listing, show Text.ofString "--tokens" ≠ Text.ofString "--ast" by decide]
    rw [hlisting]
    rfl
  · have hlisting : options.listing [Text.ofString "--ast"] =
        { options with listProgram := true } := by
      simp [Options.listing, show Text.ofString "--ast" ≠ Text.ofString "--tokens" by decide]
    rw [hlisting]
    rfl

theorem readArguments_append {words : List Text} (h : ∀ word ∈ words, word ∈ listingWords)
    (options : Options) (rest : List Text) :
    readArguments options (words ++ rest) = readArguments (options.listing words) rest := by
  induction words generalizing options with
  | nil => rw [Options.listing_nil, List.nil_append]
  | cons word words ih =>
      rw [List.cons_append, readArguments_listing (h word List.mem_cons_self),
        ih fun w hw => h w (List.mem_cons_of_mem _ hw), ← Options.listing_cons]

theorem fileRequest_eq (options : Options) {file : Text} (h : file ≠ []) (later : List Text) :
    fileRequest options (file :: later) = .run file later options := by
  simp [fileRequest, h]

theorem Names.readArguments_eq {options : Options} {rest : List Text} {request : Request}
    (h : Names options rest request) : readArguments options rest = request := by
  cases h with
  | @file word later hne hword =>
      have hclosing : word ≠ "--" := fun h => hword (h ▸ rfl)
      rw [readArguments, if_neg hclosing, if_neg hword, fileRequest_eq options hne]
  | @closed word later hne => rw [readArguments, if_pos rfl, fileRequest_eq options hne]
  | version hword =>
      simp only [versionWords, List.mem_cons, List.not_mem_nil, or_false] at hword
      rcases hword with rfl | rfl <;> rfl
  | help hword =>
      simp only [helpWords, List.mem_cons, List.not_mem_nil, or_false] at hword
      rcases hword with rfl | rfl <;> rfl
  | unknown hminus hclosing hlisting hversion hhelp =>
      simp only [listingWords, versionWords, helpWords, List.mem_cons, List.not_mem_nil, or_false,
        not_or] at hlisting hversion hhelp
      simp [readArguments, hclosing, hminus, hlisting, hversion, hhelp]
  | nothing => rfl
  | nothingClosed => rfl
  | empty => rfl
  | emptyClosed => rfl

theorem names_readArguments (options : Options) {word : Text} (h : word ∉ listingWords)
    (later : List Text) :
    Names options (word :: later) (readArguments options (word :: later)) := by
  by_cases hclosing : word = "--"
  · subst hclosing
    rw [readArguments, if_pos rfl]
    rcases later with - | ⟨file, later⟩
    · exact .nothingClosed
    · by_cases hne : file = []
      · subst hne
        exact .emptyClosed
      · rw [fileRequest_eq options hne]
        exact .closed hne
  by_cases hminus : word.head? = some Byte.minus
  · by_cases hversion : word ∈ versionWords
    · have hnames : Names options (word :: later) .showVersion := .version hversion
      rwa [hnames.readArguments_eq]
    by_cases hhelp : word ∈ helpWords
    · have hnames : Names options (word :: later) .showHelp := .help hhelp
      rwa [hnames.readArguments_eq]
    have hnames : Names options (word :: later) (.unknownOption word) :=
      .unknown hminus hclosing h hversion hhelp
    rwa [hnames.readArguments_eq]
  by_cases hne : word = []
  · subst hne
    exact .empty
  · have hnames : Names options (word :: later) (.run word later options) := .file hne hminus
    rwa [hnames.readArguments_eq]

/-- Every row of words has a part for listings and a rest that is understood by the rules. -/
theorem exists_names (options : Options) (args : List Text) :
    ∃ words rest, args = words ++ rest ∧ (∀ word ∈ words, word ∈ listingWords) ∧
      Names (options.listing words) rest (readArguments options args) := by
  induction args generalizing options with
  | nil => exact ⟨[], [], rfl, by simp, .nothing⟩
  | cons word later ih =>
      -- the options are carried along: each word for a listing changes them for the rest
      by_cases hword : word ∈ listingWords
      · obtain ⟨words, rest, rfl, hwords, hrest⟩ := ih (options.listing [word])
        rw [← Options.listing_cons, ← readArguments_listing hword] at hrest
        exact ⟨word :: words, rest, rfl, List.forall_mem_cons.mpr ⟨hword, hwords⟩, hrest⟩
      · refine ⟨[], word :: later, rfl, by simp, ?_⟩
        rw [Options.listing_nil]
        exact names_readArguments options hword later

theorem readArguments_eq_iff (args : List Text) (request : Request) :
    readArguments {} args = request ↔ Means args request := by
  constructor
  · rintro rfl
    exact exists_names {} args
  · rintro ⟨words, rest, rfl, hwords, hrest⟩
    rw [readArguments_append hwords, hrest.readArguments_eq]

/-! ## Replies -/

/-- A reply that things went well, without errors, or that they failed, with some. -/
def Reply.Clear (r : Reply) : Prop :=
  r.exitCode = 0 ∧ r.errors = [] ∨ r.exitCode = 1 ∧ r.errors ≠ []

/-- The reply to an error, with what has been printed before it. -/
def failure (terminal : Bool) (report output : Text) : Reply :=
  ⟨1, output, errorText report.beforeNul terminal ++ [Byte.newline]⟩

/-- The reply to a run, unless it was given up. -/
def runReply {α : Type} (terminal : Bool) : Outcome α → Answer
  | .done _ m => .reply ⟨0, m.output, []⟩
  | .fault f m => .reply (failure terminal f.report m.output)
  | .exhausted => .unfinished

theorem clear_failure (terminal : Bool) (report output : Text) :
    (failure terminal report output).Clear := by
  simp [Reply.Clear, failure]

theorem clear_runReply {α : Type} {terminal : Bool} {o : Outcome α} {r : Reply}
    (h : runReply terminal o = .reply r) : r.Clear := by
  cases o with
  | done a m =>
      cases h
      exact .inl ⟨rfl, rfl⟩
  | fault f m =>
      cases h
      exact clear_failure terminal f.report m.output
  | exhausted => cases h

/-- A command that failed and says why. -/
def Result.Fails (r : Result) : Prop :=
  r.exitCode = 1 ∧ r.message ≠ []

theorem Result.Fails.reply {r : Result} (h : r.Fails) (terminal : Bool) :
    (r.reply terminal).Clear := by
  simp [Reply.Clear, Result.reply, h.1, h.2]

theorem reply_report {report : Text} (h : report.beforeNul ≠ []) (color terminal : Bool)
    (output : Text) :
    (Result.mk 1 report.beforeNul color output).reply terminal =
      failure (color && terminal) report output := by
  simp [Result.reply, failure, h]

theorem beforeNul_cons_ne_nil {c : UInt8} (h : c ≠ 0) (t : Text) :
    Text.beforeNul (c :: t) ≠ [] := by
  simp [Text.beforeNul, h]

-- Reports are cut at their first NUL byte, but they begin with a word of their own.
theorem syntaxError_report_ne_nil (e : SyntaxError) : e.report.beforeNul ≠ [] :=
  beforeNul_cons_ne_nil (c := 80) (by decide) _

theorem fault_report_ne_nil (f : Fault) : f.report.beforeNul ≠ [] := by
  obtain ⟨cause, location⟩ := f
  cases cause <;> exact beforeNul_cons_ne_nil (by decide) _

/-! ## Runs of a text -/

/-- A text with a part that is no token, or with tokens that are no program. The latter is no error
where the tokens are listed. -/
def Malformed (path text : Text) (options : Options) (e : SyntaxError) : Prop :=
  Token.scan path (some (Source.ofText path text)) text = .error e ∨
    ∃ tokens, Token.scan path (some (Source.ofText path text)) text = .ok tokens ∧
      options.listTokens = false ∧ Program.parse tokens = .error e

/-- A text that is a program, and is to be run. -/
def Runnable (path text : Text) (options : Options) (program : Program) : Prop :=
  options.listTokens = false ∧ options.listProgram = false ∧
    ∃ tokens, Token.scan path (some (Source.ofText path text)) text = .ok tokens ∧
      Program.parse tokens = .ok program

section

variable {path text : Text} {options : Options} (rounds : Nat) (later : List Text)
  (terminal : Bool)

theorem reply_of_malformed {e : SyntaxError} (h : Malformed path text options e) :
    Answer.ofRun terminal (runText rounds path text later options) =
      .reply (failure (options.color && terminal) e.report []) := by
  rw [← reply_report (syntaxError_report_ne_nil e)]
  rcases h with hscan | ⟨tokens, hscan, hlist, hparse⟩
  · simp [runText, hscan, Answer.ofRun]
  · simp [runText, hscan, hlist, hparse, Answer.ofRun]

theorem reply_of_runnable {program : Program} (h : Runnable path text options program) :
    Answer.ofRun terminal (runText rounds path text later options) =
      runReply (options.color && terminal)
        ((Session.setLimit {} options.limit).perform rounds (·.runMain program later)) := by
  obtain ⟨htokens, hprogram, tokens, hscan, hparse⟩ := h
  simp only [runText, hscan, htokens, hparse, hprogram]
  cases (Session.setLimit {} options.limit).perform rounds (·.runMain program later) with
  | done v m => simp [runReply, Answer.ofRun, Result.reply]
  | fault f m => exact congrArg Answer.reply (reply_report (fault_report_ne_nil f) _ _ _)
  | exhausted => rfl

/-- A text is refused, run or listed. -/
theorem runText_cases (path text : Text) (options : Options) :
    (∃ e, Malformed path text options e) ∨ (∃ program, Runnable path text options program) ∨
      ∃ output, runText rounds path text later options = some ⟨0, [], options.color, output⟩ := by
  cases hscan : Token.scan path (some (Source.ofText path text)) text with
  | error e => exact .inl ⟨e, .inl hscan⟩
  | ok tokens =>
      by_cases htokens : options.listTokens = true
      · exact .inr (.inr ⟨Token.listing tokens, by simp [runText, hscan, htokens]⟩)
      rw [Bool.not_eq_true] at htokens
      cases hparse : Program.parse tokens with
      | error e => exact .inl ⟨e, .inr ⟨tokens, hscan, htokens, hparse⟩⟩
      | ok program =>
          by_cases hprogram : options.listProgram = true
          · exact .inr (.inr ⟨program.outline 0, by
              simp [runText, hscan, htokens, hparse, hprogram]⟩)
          · rw [Bool.not_eq_true] at hprogram
            exact .inr (.inl ⟨program, htokens, hprogram, tokens, hscan, hparse⟩)

theorem clear_runText {r : Reply}
    (h : Answer.ofRun terminal (runText rounds path text later options) = .reply r) :
    r.Clear := by
  rcases runText_cases rounds later path text options with
    ⟨e, he⟩ | ⟨program, hprogram⟩ | ⟨output, houtput⟩
  · rw [reply_of_malformed rounds later terminal he] at h
    cases h
    exact clear_failure _ _ _
  · rw [reply_of_runnable rounds later terminal hprogram] at h
    exact clear_runReply h
  · rw [houtput] at h
    cases h
    exact .inl ⟨rfl, rfl⟩

end

/-! ## Whole command lines -/

/-- A command line that is no command and names a file that can be read. -/
structure Loads (files : Files Id) (args later : List Text) (options : Options)
    (path text : Text) : Prop where
  notCommand : args.head?.any isCommand = false
  means : ∃ file, Means args (.run file later options) ∧ (resolve files file).run = path
  present : (files.present path).run = true
  read : (files.read path).run = some text

/-- A command line that names a text which is not well formed. -/
def Rejects (files : Files Id) (args : List Text) (e : SyntaxError) : Prop :=
  ∃ later options path text, Loads files args later options path text ∧
    Malformed path text options e

/-- A command line that runs a program and has further words for it. -/
def Runs (files : Files Id) (args : List Text) (program : Program) (later : List Text) : Prop :=
  ∃ options path text, Loads files args later options path text ∧
    Runnable path text options program

/-- The session in which a file is run. -/
def session : Session :=
  Session.setLimit {} 1000

/-- The reply to what a command line asks for. -/
def Request.answer (files : Files Id) (rounds : Nat) (terminal : Bool) : Request → Answer
  | .showVersion => .reply ⟨0, "em v" ++ version ++ "\n", []⟩
  | .showHelp => .reply ⟨0, usage, []⟩
  | .unknownOption word =>
    .reply ⟨1, [], "em: unknown option '" ++ word ++ "'\nTry 'em --help' for more information.\n"⟩
  | .noFile => .reply ⟨1, [], usage⟩
  | .run file later options => .ofRun terminal (runRequest files rounds file later options).run

/-- A command that comes to writing a project file, or to reading one. -/
inductive ReachesProject (files : Files Id) : List Text → Prop
  | create {words : List Text} (hwords : words.length ≤ 1)
    (habsent : (files.present projectFile).run = false) : ReachesProject files ("init" :: words)
  | start {words : List Text} {root : Text} (hroot : (projectRoot files ".").run = some root) :
    ReachesProject files ("start" :: words)

section

variable (files : Files Id) {args later : List Text} {options : Options} {path text : Text}
  (rounds : Nat) (terminal : Bool)

theorem answer_of_means {request : Request} (hargs : args.head?.any isCommand = false)
    (h : Means args request) :
    (answer files rounds terminal args).run = request.answer files rounds terminal := by
  rw [← readArguments_eq_iff] at h
  subst h
  unfold answer
  rw [hargs]
  cases readArguments {} args <;> rfl

theorem Means.options_eq {file : Text} (h : Means args (.run file later options)) :
    options.color = true ∧ options.limit = 1000 := by
  obtain ⟨words, rest, -, -, hrest⟩ := h
  cases hrest <;> exact ⟨rfl, rfl⟩

variable {files}

theorem Loads.options_eq (h : Loads files args later options path text) :
    options.color = true ∧ options.limit = 1000 := by
  obtain ⟨file, hmeans, -⟩ := h.means
  exact hmeans.options_eq

theorem Loads.answer_eq (h : Loads files args later options path text) :
    (answer files rounds terminal args).run =
      .ofRun terminal (runText rounds path text later options) := by
  obtain ⟨hargs, ⟨file, hmeans, rfl⟩, hpresent, hread⟩ := h
  have hrun : (runRequest files rounds file later options).run =
      runText rounds (resolve files file).run text later options := by
    simp [runRequest, runFile, hpresent, hread]
  rw [answer_of_means files rounds terminal hargs hmeans, Request.answer, hrun]

theorem Rejects.answer_eq {e : SyntaxError} (h : Rejects files args e) :
    (answer files rounds terminal args).run = .reply (failure terminal e.report []) := by
  obtain ⟨later, options, path, text, hloads, hmalformed⟩ := h
  rw [hloads.answer_eq, reply_of_malformed rounds later terminal hmalformed, hloads.options_eq.1,
    Bool.true_and]

theorem Runs.answer_eq {program : Program} (h : Runs files args program later) :
    (answer files rounds terminal args).run =
      runReply terminal (session.perform rounds (·.runMain program later)) := by
  obtain ⟨options, path, text, hloads, hrunnable⟩ := h
  obtain ⟨hcolor, hlimit⟩ := hloads.options_eq
  rw [hloads.answer_eq, reply_of_runnable rounds later terminal hrunnable, hcolor, hlimit,
    Bool.true_and, session]

variable (files)

theorem initProject_eq (words : List Text) :
    (initProject files words).run =
      if 1 < words.length then some ⟨1, "Usage: em init [name]", true, []⟩
      else if (files.present projectFile).run then
        some ⟨1, projectFile ++ " already exists in current directory", true, []⟩
      else none := by
  unfold initProject
  split
  · rfl
  · cases files.present projectFile <;> rfl

theorem startProject_eq :
    (startProject files).run =
      if (projectRoot files ".").run = none then
        some ⟨1, "No " ++ projectFile ++ noProjectHint, true, []⟩
      else none := by
  unfold startProject
  cases projectRoot files "." <;> rfl

/-- Where a command ends before it comes to a project file, it fails and says why. -/
theorem command_fails {args : List Text} {r : Result} (h : (command files args).run = some r) :
    r.Fails := by
  unfold command at h
  split at h
  · cases h
    exact ⟨rfl, List.cons_ne_nil _ _⟩
  · split at h
    · rw [initProject_eq] at h
      split at h
      · cases h
        exact ⟨rfl, List.cons_ne_nil _ _⟩
      · split at h <;> cases h
        exact ⟨rfl, List.cons_ne_nil _ _⟩
    · split at h
      · rw [startProject_eq] at h
        split at h <;> cases h
        exact ⟨rfl, List.cons_ne_nil _ _⟩
      · cases h
        exact ⟨rfl, List.cons_ne_nil _ _⟩

theorem command_eq_none_iff {args : List Text} :
    (command files args).run = none ↔ ReachesProject files args := by
  constructor
  · intro h
    unfold command at h
    split at h
    · cases h
    · next word words =>
        split at h
        · next hword =>
            subst hword
            rw [initProject_eq] at h
            split_ifs at h with hwords hpresent
            exact .create (by omega) (by simpa using hpresent)
        · split at h
          · next hword =>
              subst hword
              rw [startProject_eq] at h
              split_ifs at h with hroot
              obtain ⟨root, hroot⟩ := Option.ne_none_iff_exists'.mp hroot
              exact .start hroot
          · cases h
  · rintro (⟨hwords, habsent⟩ | hroot)
    · rw [command, if_pos rfl, initProject_eq, if_neg (by omega), habsent]
      rfl
    · rw [command, if_neg (by decide), if_pos rfl, startProject_eq, hroot]
      rfl

theorem ReachesProject.isCommand {files : Files Id} {args : List Text}
    (h : ReachesProject files args) : args.head?.any isCommand = true := by
  cases h <;> rfl

/-- A request to run a file fails at once unless the file can be read. -/
theorem runRequest_cases (file : Text) (later : List Text) (options : Options) :
    (∃ text, (files.present (resolve files file).run).run = true ∧
        (files.read (resolve files file).run).run = some text) ∨
      ∃ r, (runRequest files rounds file later options).run = some r ∧ r.Fails := by
  cases hpresent : (files.present (resolve files file).run).run with
  | false =>
      exact .inr ⟨notFound file, by simp [runRequest, hpresent], rfl, List.cons_ne_nil _ _⟩
  | true =>
      cases hread : (files.read (resolve files file).run).run with
      | none =>
          have hrun : (runRequest files rounds file later options).run =
              some ⟨1, "Could not open file: " ++ (resolve files file).run, options.color, []⟩ := by
            simp [runRequest, runFile, hpresent, hread]
          exact .inr ⟨_, hrun, rfl, List.cons_ne_nil _ _⟩
      | some text => exact .inl ⟨text, rfl, rfl⟩

/-- A command line loads a file, comes to a project file or has a reply at once. -/
theorem loads_or_clear (args : List Text) :
    (∃ later options path text, Loads files args later options path text) ∨
      ReachesProject files args ∧ (answer files rounds terminal args).run = .projectFile ∨
      ¬ ReachesProject files args ∧
        ∃ r, (answer files rounds terminal args).run = .reply r ∧ r.Clear := by
  cases hargs : args.head?.any isCommand with
  | true =>
      have hanswer : (answer files rounds terminal args).run =
          .ofCommand terminal (command files args).run := by
        simp [answer, hargs]
      rw [hanswer]
      rw [← command_eq_none_iff]
      cases hcommand : (command files args).run with
      | none => exact .inr (.inl ⟨rfl, rfl⟩)
      | some r =>
          have hfails := command_fails files hcommand
          exact .inr (.inr ⟨Option.some_ne_none r, _, rfl, hfails.reply terminal⟩)
  | false =>
      have hreaches : ¬ ReachesProject files args := fun h => by simp [h.isCommand] at hargs
      have hmeans := (readArguments_eq_iff args _).mp rfl
      rw [answer_of_means files rounds terminal hargs hmeans]
      cases hrequest : readArguments {} args with
      | showVersion => exact .inr (.inr ⟨hreaches, _, rfl, .inl ⟨rfl, rfl⟩⟩)
      | showHelp => exact .inr (.inr ⟨hreaches, _, rfl, .inl ⟨rfl, rfl⟩⟩)
      | unknownOption word =>
          exact .inr (.inr ⟨hreaches, _, rfl, .inr ⟨rfl, List.cons_ne_nil _ _⟩⟩)
      | noFile => exact .inr (.inr ⟨hreaches, _, rfl, .inr ⟨rfl, List.cons_ne_nil _ _⟩⟩)
      | run file later options =>
          rw [hrequest] at hmeans
          rcases runRequest_cases files rounds file later options with
            ⟨text, hpresent, hread⟩ | ⟨r, hrun, hfails⟩
          · exact .inl ⟨later, options, _, text, hargs, ⟨file, hmeans, rfl⟩, hpresent, hread⟩
          · refine .inr (.inr ⟨hreaches, r.reply terminal, ?_, hfails.reply terminal⟩)
            rw [Request.answer, hrun, Answer.ofRun]

theorem clear_answer {r : Reply} (h : (answer files rounds terminal args).run = .reply r) :
    r.Clear := by
  rcases loads_or_clear files rounds terminal args with
    ⟨later, options, path, text, hloads⟩ | ⟨-, hproject⟩ | ⟨-, r', hr', hclear⟩
  · rw [hloads.answer_eq] at h
    exact clear_runText rounds later terminal h
  · rw [hproject] at h
    cases h
  · rw [hr'] at h
    cases h
    exact hclear

theorem Answer.ofRun_ne_projectFile (terminal : Bool) (r? : Option Result) :
    Answer.ofRun terminal r? ≠ .projectFile := by
  cases r? <;> exact Answer.noConfusion

/-- What a command does to project files is all that is left open. -/
theorem answer_eq_projectFile_iff :
    (answer files rounds terminal args).run = .projectFile ↔ ReachesProject files args := by
  rcases loads_or_clear files rounds terminal args with
    ⟨later, options, path, text, hloads⟩ | ⟨hreaches, hproject⟩ | ⟨hreaches, r, hr, -⟩
  · rw [hloads.answer_eq]
    refine iff_of_false (Answer.ofRun_ne_projectFile _ _) fun h => ?_
    exact absurd h.isCommand (by simp [hloads.notCommand])
  · exact iff_of_true hproject hreaches
  · rw [hr]
    exact iff_of_false Answer.noConfusion hreaches

/-- Only a program that does not come to an end leaves a command line without an end. -/
theorem answer_eq_unfinished_iff :
    (answer files rounds terminal args).run = .unfinished ↔ ∃ program later,
      Runs files args program later ∧
        session.perform rounds (·.runMain program later) = .exhausted := by
  constructor
  · intro hopen
    rcases loads_or_clear files rounds terminal args with
      ⟨later, options, path, text, hloads⟩ | ⟨-, hproject⟩ | ⟨-, r, hr, -⟩
    · rcases runText_cases rounds later path text options with
        ⟨e, he⟩ | ⟨program, hprogram⟩ | ⟨output, houtput⟩
      · rw [Rejects.answer_eq rounds terminal ⟨_, _, _, _, hloads, he⟩] at hopen
        cases hopen
      · have hruns : Runs files args program later := ⟨_, _, _, hloads, hprogram⟩
        rw [hruns.answer_eq] at hopen
        refine ⟨program, later, hruns, ?_⟩
        cases hrun : session.perform rounds (·.runMain program later) with
        | exhausted => rfl
        | _ => simp [hrun, runReply] at hopen
      · rw [hloads.answer_eq, houtput] at hopen
        cases hopen
    · rw [hproject] at hopen
      cases hopen
    · rw [hr] at hopen
      cases hopen
  · rintro ⟨program, later, hruns, hexhausted⟩
    rw [hruns.answer_eq, hexhausted, runReply]

end

/-- The start of a program is the body of its main function, in a frame that has the words in an
array under the name of the parameter and nothing else. -/
theorem perform_runMain {s : Session} {rounds : Nat} {program : Program} {m : Machine}
    {f : Function} {p : Text} (hdone : s.perform rounds (·.evaluate program) = .done () m)
    (hmain : Table.get? m.heap Env.mainName = some (.function f)) (hparams : f.params = [p])
    (words : List Text) :
    s.perform rounds (·.runMain program words) =
      ({ s with machine := m } : Session).perform rounds fun env =>
        Prod.fst <$> env.execute f [(p, .array (words.map .string))] f.token := by
  let next : Session := { s with machine := m }
  let array : Value := .array (words.map .string)
  have hcall : next.perform rounds (·.callMain array) =
      next.perform rounds (·.call f [array] f.token) := by
    have hdeclared : (Evaluation.declared? Env.mainName : Eval (Option Value)) m =
        .done (some (.function f)) m := congrArg (Outcome.done · m) hmain
    refine (Eval.bind_of_done hdeclared).trans ?_
    simp only [hparams, List.length_singleton, if_true]
    rfl
  calc s.perform rounds (·.runMain program words)
      = next.perform rounds (·.callMain array) := Eval.bind_of_done hdone
    _ = next.perform rounds (·.call f [array] f.token) := hcall
    _ = next.perform rounds fun env => Prod.fst <$> env.execute f [(p, array)] f.token := by
        simp only [Env.call, hparams]
        rfl

/-- What becomes of a program and the words for it: the words reach its main function in order and
unchanged, and the reply has everything that is printed at any moment of the run. -/
structure Carried (program : Program) (words : List Text) (rounds : Nat) (terminal : Bool)
    (answer : Answer) : Prop where
  answer_eq : answer = runReply terminal (session.perform rounds (·.runMain program words))
  main_frame : ∀ m f p, session.perform rounds (·.evaluate program) = .done () m →
    Table.get? m.heap Env.mainName = some (.function f) → f.params = [p] →
    session.perform rounds (·.runMain program words) =
      ({ session with machine := m } : Session).perform rounds fun env =>
        Prod.fst <$> env.execute f [(p, .array (words.map .string))] f.token
  trace_eq : (session.trace rounds (·.runMain program words)).2 =
    session.perform rounds (·.runMain program words)
  output : ∀ k ∈ session.moments rounds (·.runMain program words), ∀ r, answer = .reply r →
    k.machine.output <+: r.output

theorem Runs.carried {files : Files Id} {args later : List Text} {program : Program}
    (h : Runs files args program later) (rounds : Nat) (terminal : Bool) :
    Carried program later rounds terminal (answer files rounds terminal args).run where
  answer_eq := h.answer_eq rounds terminal
  main_frame := fun _ _ _ hdone hmain hparams => perform_runMain hdone hmain hparams later
  trace_eq := session.trace_outcome rounds (.run program later)
  output := by
    intro k hk r hr
    have hends : (session.perform rounds (·.runMain program later)).Leaves
        (k.machine.output <+: ·.output) := session.output_grows rounds (.run program later) hk
    rw [h.answer_eq] at hr
    cases hrun : session.perform rounds (·.runMain program later) with
    | done v m =>
        rw [hrun] at hr hends
        cases hr
        exact hends
    | fault f m =>
        rw [hrun] at hr hends
        cases hr
        exact hends
    | exhausted =>
        rw [hrun] at hr
        cases hr

/-- A command line is understood in one way, whatever stands after the name of its file. A program
gets these words and has its output in the reply, also if it fails; a text that is not well formed
prints nothing. There is a reply unless a program does not come to an end or a command comes to a
project file, and it has errors exactly if its exit code is 1 and not 0. -/
theorem command_line_contract (files : Files Id) (terminal : Bool) (args : List Text) :
    (args.head?.any isCommand = false →
      (∃! request, Means args request) ∧ ∀ request, Means args request →
        ∀ rounds, (answer files rounds terminal args).run =
          request.answer files rounds terminal) ∧
    (∀ program later, Runs files args program later → ∀ rounds,
      Carried program later rounds terminal (answer files rounds terminal args).run) ∧
    (∀ e, Rejects files args e → ∀ rounds,
      (answer files rounds terminal args).run = .reply (failure terminal e.report [])) ∧
    (∀ rounds, (answer files rounds terminal args).run = .unfinished ↔ ∃ program later,
      Runs files args program later ∧
        session.perform rounds (·.runMain program later) = .exhausted) ∧
    (∀ rounds, (answer files rounds terminal args).run = .projectFile ↔
      ReachesProject files args) ∧
    ∀ rounds reply, (answer files rounds terminal args).run = .reply reply →
      reply.exitCode ≤ 1 ∧ (reply.exitCode = 1 ↔ reply.errors ≠ []) := by
  refine ⟨fun hargs => ⟨?_, fun request hrequest rounds => ?_⟩, ?_, ?_, ?_, ?_, ?_⟩
  · refine ⟨readArguments {} args, (readArguments_eq_iff args _).mp rfl, fun request hrequest => ?_⟩
    exact ((readArguments_eq_iff args request).mpr hrequest).symm
  · exact answer_of_means files rounds terminal hargs hrequest
  · exact fun program later hruns rounds => hruns.carried rounds terminal
  · exact fun e hrejects rounds => hrejects.answer_eq rounds terminal
  · exact fun rounds => answer_eq_unfinished_iff files rounds terminal
  · exact fun rounds => answer_eq_projectFile_iff files rounds terminal
  · intro rounds reply hreply
    rcases clear_answer files rounds terminal hreply with ⟨hcode, herrors⟩ | ⟨hcode, herrors⟩
    · simp [hcode, herrors]
    · simp [hcode, herrors]

/-- A working directory with one file, whose name begins like an option. -/
def dashed (content : Text) : Disk :=
  ⟨.directory [("-x", .file content)], []⟩

/-- Words that look like options go to the program, which prints them before it fails. -/
theorem words_passed_on :
    let files := (dashed "func main(args) \x7b print(args); missing(); \x7d").files
    let later : List Text := ["--ast", "", "-h", "--"]
    let reply : Reply := ⟨1, "[\"--ast\", \"\", \"-h\", \"--\"]\n",
      [ "Error: UndefinedError at -x:1:32", "Function 'missing' is not defined",
        " --> Traced at:", " * 1 | func main(args) \x7b print(args); missing(); \x7d",
        "                                      ^^^^^^^" ].flatMap
          fun line : String => Text.ofString line ++ "\n"⟩
    (∃ program, Runs files ("--" :: "-x" :: later) program later ∧
      Carried program later 20 false (answer files 20 false ("--" :: "-x" :: later)).run) ∧
    (answer files 20 false ("--" :: "-x" :: later)).run = .reply reply ∧
    reply.exitCode ≤ 1 ∧ (reply.exitCode = 1 ↔ reply.errors ≠ []) := by
  intro files later reply
  obtain ⟨-, hcarried, hrejects, -, -, hcodes⟩ :=
    command_line_contract files false ("--" :: "-x" :: later)
  have hloads : Loads files ("--" :: "-x" :: later) later {} "-x"
      "func main(args) \x7b print(args); missing(); \x7d" := by
    refine ⟨rfl, ⟨"-x", ⟨[], _, rfl, by simp, .closed (by decide)⟩, ?_⟩, ?_, ?_⟩
    all_goals decide +kernel
  have hanswer : (answer files 20 false ("--" :: "-x" :: later)).run = .reply reply := by
    decide +kernel
  have hruns : ∃ program, Runs files ("--" :: "-x" :: later) program later := by
    -- an error in the text would leave nothing printed, and a listing would not fail
    rcases runText_cases 20 later "-x" _ {} with ⟨e, he⟩ | ⟨program, hprogram⟩ | ⟨output, houtput⟩
    · have hrejected := hrejects e ⟨_, _, _, _, hloads, he⟩ 20
      rw [hanswer] at hrejected
      exact absurd (congrArg Reply.output (Answer.reply.inj hrejected)) (List.cons_ne_nil _ _)
    · exact ⟨program, _, _, _, hloads, hprogram⟩
    · have hlisted := hloads.answer_eq 20 false
      rw [hanswer, houtput] at hlisted
      exact absurd (congrArg Reply.exitCode (Answer.reply.inj hlisted)) Nat.one_ne_zero
  obtain ⟨program, hprogram⟩ := hruns
  exact ⟨⟨program, hprogram, hcarried program later hprogram 20⟩, hanswer, hcodes 20 _ hanswer⟩

/-- A word that begins like an option names no file, even if there is one, unless the options are
closed before it. -/
theorem dashed_name_refused :
    let files := (dashed "func main(args) \x7b print(1); \x7d").files
    (files.present "-x").run = true ∧
      (answer files 20 false ["-x"]).run = .reply ⟨1, [],
        "em: unknown option '-x'\nTry 'em --help' for more information.\n"⟩ ∧
      (answer files 20 false ["--", "-x"]).run = .reply ⟨0, "1\n", []⟩ := by
  decide +kernel

end Script.CommandLine
