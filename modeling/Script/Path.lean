import Script.Text

/-!
# Paths

Paths as texts: names with slashes between them. A path is never tidied up, so that messages
show it as it was given.
-/

namespace Script.Path

/-- The texts between slashes. -/
def components (path : Text) : List Text :=
  path.foldr
    (fun b parts =>
      if b = Byte.slash then [] :: parts
      else match parts with
        | [] => [[b]]
        | part :: rest => (b :: part) :: rest)
    [[]]

def isAbsolute (path : Text) : Bool :=
  path.head? = some Byte.slash

/-- What follows the last slash. -/
def fileName (path : Text) : Text :=
  (path.reverse.takeWhile (· != Byte.slash)).reverse

/-- Whether the file name has a dot that is not its first byte. The names of a directory itself
and of its parent have no extension. -/
def hasExtension (path : Text) : Bool :=
  let name := fileName path
  name != ".." && name.tail.contains Byte.dot

def dropSlashes (path : Text) : Text :=
  (path.reverse.dropWhile (· == Byte.slash)).reverse

def dropName (path : Text) : Text :=
  (path.reverse.dropWhile (· != Byte.slash)).reverse

/-- The path without its last name, or without the slashes after it. The root is its own
parent, and a single name has none. -/
def parent (path : Text) : Text :=
  if (dropSlashes path).isEmpty then path
  else
    let rest := dropSlashes (dropName path)
    if rest.isEmpty && isAbsolute path then [Byte.slash] else rest

/-- A name inside a directory. -/
def child (directory name : Text) : Text :=
  if directory.isEmpty || directory.getLast? = some Byte.slash then directory ++ name
  else directory ++ [Byte.slash] ++ name

/-- The path seen from the root, given the working directory. -/
def absolute (workingDirectory path : Text) : Text :=
  if isAbsolute path then path else child workingDirectory path

end Script.Path
