import Script.Path
import Script.Table

/-!
# Files and directories

A tree of files and directories with a working directory in it, and what a command line asks of
one: whether a path leads anywhere, and what a file holds. Directories are made and files are
written by path too, by the same rules for following one.
-/

namespace Script

/-- What a command line asks of the files around it. -/
structure Files (m : Type → Type) where
  /-- Whether a path leads to a file or directory. -/
  present : Text → m Bool
  /-- What a file holds. A directory can be opened too, and is read as empty. -/
  read : Text → m (Option Text)
  /-- The working directory, from the root. -/
  workingDirectory : m Text

inductive Entry where
  | file (content : Text)
  | directory (entries : List (Text × Entry))
  deriving Inhabited

namespace Entry

/-- What a list of names leads to. -/
def find? : Entry → List Text → Option Entry
  | e, [] => some e
  | .file _, _ :: _ => none
  | .directory entries, name :: rest =>
    match Table.get? entries name with
    | some e => e.find? rest
    | none => none

/-- Puts something where a list of names leads to. Behind a file there is no place for it. -/
def put (new : Entry) : List Text → Entry → Entry
  | [], _ => new
  | _ :: _, .file content => .file content
  | name :: rest, .directory entries =>
    let old := (Table.get? entries name).getD (.directory [])
    .directory (Table.insert name (put new rest old) entries)

end Entry

/-- A tree of files and the names that lead to the working directory. -/
structure Disk where
  root : Entry
  working : List Text

namespace Disk

/-- Follows one component of a path from a place in the tree. Only a directory has anything
behind it, also where the component is empty or a dot. -/
def follow (d : Disk) (place : List Text) (component : Text) : Option (List Text) :=
  match d.root.find? place with
  | some (.directory entries) =>
    if component.isEmpty || component = "." then some place
    else if component = ".." then some place.dropLast
    else if Table.contains entries component then some (place ++ [component])
    else none
  | _ => none

/-- The names that lead to where a path starts. -/
def start (d : Disk) (path : Text) : List Text :=
  if Path.isAbsolute path then [] else d.working

/-- The names that lead from the root to where a path leads. -/
def locate (d : Disk) (path : Text) : Option (List Text) :=
  let path := path.beforeNul
  if path.isEmpty then none
  else (Path.components path).foldlM d.follow (d.start path)

/-- The path of a place in the tree. -/
def pathOf (place : List Text) : Text :=
  [Byte.slash] ++ Text.join [Byte.slash] place

def read (d : Disk) (path : Text) : Option Text :=
  match (d.locate path).bind d.root.find? with
  | some (.file content) => some content
  | some (.directory _) => some []
  | none => none

def put (d : Disk) (place : List Text) (new : Entry) : Disk :=
  { d with root := Entry.put new place d.root }

/-- The length of the longest names that can be given to files and directories. -/
def maxName : Nat := 255

/-- Follows one component of a path, and makes a directory of that name if there is nothing.
Behind a file nothing can be made, nor under a name that is too long: the way ends there. -/
def followMaking : Disk × Option (List Text) → Text → Disk × Option (List Text)
  | (d, none), _ => (d, none)
  | (d, some place), component =>
    match d.follow place component, d.root.find? place with
    | some next, _ => (d, some next)
    | none, some (.directory _) =>
      if component.length ≤ maxName then
        (d.put (place ++ [component]) (.directory []), some (place ++ [component]))
      else (d, none)
    | none, _ => (d, none)

/-- Makes every directory on a path that is not there yet. -/
def makeDirectories (d : Disk) (path : Text) : Disk :=
  let path := path.beforeNul
  ((Path.components path).foldl followMaking (d, some (d.start path))).1

/-- Writes a file into a directory that is there. A path that leads to a directory, or that ends
like one, leaves everything as it is, and so does a name that is too long. -/
def write (d : Disk) (path content : Text) : Disk :=
  let path := path.beforeNul
  let name := Path.fileName path
  match (Path.components path).dropLast.foldlM d.follow (d.start path) with
  | none => d
  | some place =>
    if name.isEmpty || name = "." || name = ".." || maxName < name.length then d
    else match d.root.find? place, d.root.find? (place ++ [name]) with
      | some (.directory _), some (.directory _) => d
      | some (.directory _), _ => d.put (place ++ [name]) (.file content)
      | _, _ => d

/-- Makes the directories above a file and writes it. -/
def addFile (d : Disk) (path content : Text) : Disk :=
  (d.makeDirectories (Path.parent path)).write path content

def files (d : Disk) : Files Id where
  present := fun path => (d.locate path).isSome
  read := d.read
  workingDirectory := pathOf d.working

end Disk

end Script
