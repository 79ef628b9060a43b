import Script.CommandLine

/-!
# The program

The command line on the files of the machine it runs on.
-/

namespace Script

/-- A text as a string, for the names of files. -/
def shownText (t : Text) : String :=
  (String.fromUTF8? (ByteArray.mk t.toArray)).getD ""

/-- The files of the machine. Whatever can be opened is there; what cannot be read is empty. -/
def systemFiles : Files IO where
  present := fun path => do
    match ← (IO.FS.Handle.mk (shownText path) .read).toBaseIO with
    | .ok _ => return true
    | .error _ => return false
  read := fun path => do
    match ← (IO.FS.Handle.mk (shownText path) .read).toBaseIO with
    | .error _ => return none
    | .ok handle =>
      match ← handle.readBinToEnd.toBaseIO with
      | .ok bytes => return some bytes.data.toList
      | .error _ => return some []
  workingDirectory := do
    return Text.ofString (← IO.currentDir).toString

/-- More rounds than any run can take. -/
def manyRounds : Nat := Nat.pow 2 62

end Script

def main (args : List String) : IO UInt32 := do
  let stderr ← IO.getStderr
  let terminal ← stderr.isTty
  let answer ← Script.CommandLine.answer Script.systemFiles Script.manyRounds terminal
    (args.map Script.Text.ofString)
  match answer with
  | .unfinished => return 1
  | .projectFile =>
    stderr.putStrLn "Error: project files are neither written nor read"
    return 1
  | .reply reply =>
    (← IO.getStdout).write (ByteArray.mk reply.output.toArray)
    stderr.write (ByteArray.mk reply.errors.toArray)
    return UInt32.ofNat reply.exitCode
