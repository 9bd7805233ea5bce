import Landing.Json.Record
import Landing.Table

/-!
# File trees

A tree holds the content of every file under its path.  Trees are tables, so
paths are listed in ascending order and two trees with the same files are equal.
-/

namespace Landing

/-- The content of each file, by path. -/
abbrev Tree := Table String String

namespace Tree

/-- A tree as an object with one member per path. -/
def toJson (t : Tree) : Json := .object (t.entries.map fun e => (e.1, .string e.2))

/-- Read a tree; of a repeated path the last content counts. -/
def ofJson? (j : Json) : Option Tree := (j.membersOf? Json.string?).map Table.ofList

end Tree

end Landing
