import Script.Disk
import Script.Parser
import Script.Session
import Script.Syntax.Outline
import Script.Token.Lexer
import Script.Token.Listing

/-!
# The command line

Reading the arguments, finding the file that they mean, and running or listing it.
-/

namespace Script.CommandLine

/-- How a single file is run. -/
structure Options where
  limit : Nat := 1000
  color : Bool := true
  listTokens : Bool := false
  listProgram : Bool := false
  deriving DecidableEq

/-- How a command ends: its exit code, what is to be reported, whether the report may be
coloured, and what has been printed. -/
structure Result where
  exitCode : Nat
  message : Text
  color : Bool := true
  output : Text := []
  deriving DecidableEq

/-- What a run of the whole command line writes. -/
structure Reply where
  exitCode : Nat
  output : Text := []
  errors : Text := []
  deriving DecidableEq

/-- How a command line is answered. What comes of reading or writing a project file is left open
here, and so is the end of a program that needs more rounds than given. -/
inductive Answer where
  | reply (r : Reply)
  | unfinished
  | projectFile
  deriving DecidableEq

/-! ## Texts -/

def version : Text := "0.1.0"

/-- The ending of source file names. -/
def sourceExtension : Text := ".em"

/-- The file that marks the root directory of a project. -/
def projectFile : Text := "em.json"

def usage : Text :=
  [ "Usage: em [options] [file] [args...]",
    "       em init [name]",
    "       em start [args...]",
    "Options:",
    "  -v, --version    Print version and exit",
    "  -h, --help       Show this help message",
    "  --tokens         Print the token stream instead of running",
    "  --ast            Print the parsed program instead of running",
    "",
    "Arguments after the file name are passed to main(args).",
    "If a filename starts with '-', use `--` to end options:",
    "  em -- -weird.em" ].flatMap fun line : String => Text.ofString line ++ "\n"

/-- An error message as it is shown, in red on a terminal. -/
def errorText (message : Text) (color : Bool) : Text :=
  if color then "\x1b[31mError: " ++ message ++ "\x1b[0m" else "Error: " ++ message

/-! ## Running one file -/

/-- Runs a source text, or lists it as the options say. A report ends at its first NUL byte. -/
def runText (rounds : Nat) (path text : Text) (args : List Text) (options : Options) :
    Option Result :=
  let failed (report output : Text) : Option Result :=
    some ⟨1, report.beforeNul, options.color, output⟩
  let finished (output : Text) : Option Result :=
    some ⟨0, [], options.color, output⟩
  match Token.scan path (some (Source.ofText path text)) text with
  | .error e => failed e.report []
  | .ok tokens =>
    if options.listTokens then finished (Token.listing tokens)
    else
      match Program.parse tokens with
      | .error e => failed e.report []
      | .ok program =>
        if options.listProgram then finished (program.outline 0)
        else
          let session := Session.setLimit {} options.limit
          match session.perform rounds (·.runMain program args) with
          | .done _ m => finished m.output
          | .fault f m => failed f.report m.output
          | .exhausted => none

variable {m : Type → Type} [Monad m]

/-- Runs a file. There is no result if the program needs more rounds than given. -/
def runFile (files : Files m) (rounds : Nat) (path : Text) (args : List Text)
    (options : Options) : m (Option Result) := do
  match ← files.read path with
  | none => return some ⟨1, "Could not open file: " ++ path, options.color, []⟩
  | some text => return runText rounds path text args options

/-- The file that a name means: itself, or the name with the usual ending if only that is there
and the name has no ending of its own. -/
def resolve (files : Files m) (path : Text) : m Text := do
  if ← files.present path then
    return path
  else if Path.hasExtension path then
    return path
  else if ← files.present (path ++ sourceExtension) then
    return path ++ sourceExtension
  else
    return path

/-! ## Projects -/

/-- The nearest directory with a project file, from a path upward. The path is followed name by
name as it is written, for at most `n` steps. -/
def projectRootFrom (files : Files m) : Nat → Text → m (Option Text)
  | 0, _ => return none
  | n + 1, path => do
    if ← files.present (Path.child path projectFile) then
      return some path
    else if Path.parent path = path || (Path.parent path).isEmpty then
      return none
    else
      projectRootFrom files n (Path.parent path)

/-- The root directory of the project around a path. -/
def projectRoot (files : Files m) (start : Text) : m (Option Text) := do
  let path := Path.absolute (← files.workingDirectory) start
  projectRootFrom files (path.length + 1) path

def isCommand (word : Text) : Bool :=
  word = "init" || word = "start"

/-- Starts a project in the working directory, or gives the reason why it must not. -/
def initProject (files : Files m) (args : List Text) : m (Option Result) := do
  if 1 < args.length then
    return some ⟨1, "Usage: em init [name]", true, []⟩
  else if ← files.present projectFile then
    return some ⟨1, projectFile ++ " already exists in current directory", true, []⟩
  else
    return none

def noProjectHint : Text :=
  " found in current directory or parent directories. Run 'em init' to create one."

/-- Runs the project around the working directory, or tells that there is none. -/
def startProject (files : Files m) : m (Option Result) := do
  match ← projectRoot files "." with
  | none => return some ⟨1, "No " ++ projectFile ++ noProjectHint, true, []⟩
  | some _ => return none

/-- Executes a command, given with its arguments, up to where it writes or reads a project file.
There is no result if it comes to that. -/
def command (files : Files m) : List Text → m (Option Result)
  | [] => return some ⟨1, "No command specified", true, []⟩
  | word :: args =>
    if word = "init" then initProject files args
    else if word = "start" then startProject files
    else return some ⟨1, "Unknown command: " ++ word, true, []⟩

/-! ## Reading the arguments -/

/-- What the arguments ask for. -/
inductive Request where
  | showVersion
  | showHelp
  | unknownOption (word : Text)
  | noFile
  | run (file : Text) (args : List Text) (options : Options)
  deriving DecidableEq

/-- A file and its arguments; an empty name is no file. -/
def fileRequest (options : Options) : List Text → Request
  | [] => .noFile
  | file :: args => if file.isEmpty then .noFile else .run file args options

/-- Options come first, up to a word that is none or to the first `--`. All words after the file
belong to the program. -/
def readArguments (options : Options) : List Text → Request
  | [] => .noFile
  | word :: rest =>
    if word = "--" then fileRequest options rest
    else if word.head? = some Byte.minus then
      if word = "-v" || word = "--version" then .showVersion
      else if word = "-h" || word = "--help" then .showHelp
      else if word = "--tokens" then readArguments { options with listTokens := true } rest
      else if word = "--ast" then readArguments { options with listProgram := true } rest
      else .unknownOption word
    else fileRequest options (word :: rest)

/-- Reports how a command ended. Only a terminal gets colours. -/
def Result.reply (terminal : Bool) (r : Result) : Reply :=
  if r.exitCode = 0 then
    ⟨0, r.output ++ (if r.message.isEmpty then [] else r.message ++ [Byte.newline]), []⟩
  else
    ⟨r.exitCode, r.output,
      if r.message.isEmpty then []
      else errorText r.message (r.color && terminal) ++ [Byte.newline]⟩

/-- The message for a file that is not there. -/
def notFound (file : Text) : Result :=
  let tried : Text :=
    if Path.hasExtension file then [] else " (also tried " ++ file ++ sourceExtension ++ ")"
  ⟨1, "File not found: " ++ file ++ tried, true, []⟩

/-- Runs the file that a request names. -/
def runRequest (files : Files m) (rounds : Nat) (file : Text) (args : List Text)
    (options : Options) : m (Option Result) := do
  let path ← resolve files file
  if ← files.present path then runFile files rounds path args options
  else return some (notFound file)

/-- The answer to a run that may have been given up. -/
def Answer.ofRun (terminal : Bool) : Option Result → Answer
  | some r => .reply (r.reply terminal)
  | none => .unfinished

/-- The answer to a command that may have come to a project file. -/
def Answer.ofCommand (terminal : Bool) : Option Result → Answer
  | some r => .reply (r.reply terminal)
  | none => .projectFile

/-- The whole command line. -/
def answer (files : Files m) (rounds : Nat) (terminal : Bool) (args : List Text) :
    m Answer := do
  if args.head?.any isCommand then
    return .ofCommand terminal (← command files args)
  else
    match readArguments {} args with
    | .showVersion => return .reply ⟨0, "em v" ++ version ++ "\n", []⟩
    | .showHelp => return .reply ⟨0, usage, []⟩
    | .unknownOption word =>
      return .reply ⟨1, [], "em: unknown option '" ++ word
        ++ "'\nTry 'em --help' for more information.\n"⟩
    | .noFile => return .reply ⟨1, [], usage⟩
    | .run file args options =>
      return .ofRun terminal (← runRequest files rounds file args options)

end Script.CommandLine
