import Script.Text

/-!
# Tables

Finite maps from names to things, kept as lists in byte order of the names. Variables, the
heap, and the properties of an object are tables.
-/

namespace Script

/-- Named entries in the order of their names, each name at most once. -/
abbrev Table (α : Type) := List (Text × α)

namespace Table

variable {α : Type}

/-- The entry of a name. -/
def get? : Table α → Text → Option α
  | [], _ => none
  | (key, value) :: rest, name => if key = name then some value else get? rest name

def contains (t : Table α) (name : Text) : Bool :=
  (t.get? name).isSome

/-- Adds an entry, or replaces the one of the same name. -/
def insert (name : Text) (value : α) : Table α → Table α
  | [] => [(name, value)]
  | (key, old) :: rest =>
    match Text.compare name key with
    | .lt => (name, value) :: (key, old) :: rest
    | .eq => (name, value) :: rest
    | .gt => (key, old) :: insert name value rest

/-- The table of a list of entries; of several with one name the last stays. -/
def ofList (entries : List (Text × α)) : Table α :=
  entries.foldl (fun t (name, value) => insert name value t) []

end Table

end Script
