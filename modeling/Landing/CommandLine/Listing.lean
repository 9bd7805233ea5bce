import Landing.World

/-!
# Listings

The tables that commands print.  Columns are filled with blanks up to a fixed
width, and a longer entry pushes the rest of its line to the right.
-/

namespace Landing.CommandLine

/-- One line per branch that moves. -/
def tipLines (tips : Table Branch CommitId) : List String :=
  if tips.isEmpty then ["No branch would move."]
  else tips.entries.map fun e => Text.padRight 40 e.1.text ++ " " ++ e.2.text

/-- The tips of a change as one record, ordered by the texts of the branches. -/
def tipRecord (change : ChangeId) (tips : Table Branch CommitId) : Json :=
  let byText : Table String CommitId := Table.ofList (tips.entries.map fun e => (e.1.text, e.2))
  .object [
    ("change", .ofWord change),
    ("tips", .object (byText.entries.map fun e => (e.1, e.2.toJson)))]

/-- The lines for one project: its name and its branches. -/
def projectLines (name : ProjectName) (p : Project) : List String :=
  name :: p.refs.entries.map fun r => "  " ++ Text.padRight 32 r.1 ++ " " ++ r.2.short

/-- The line for one change. -/
def changeLine (c : Change) : String :=
  toString c.id.toNat ++ "  " ++ Text.padRight 9 c.status.text ++ " " ++
    Text.padRight 40 c.dest.text ++ " " ++ ((c.currentCommit?.map CommitId.short).getD "") ++ " " ++
    c.topic.getD ""

/-- Every project with its branches, and below that every change. -/
def worldLines (w : World) : List String :=
  let projects := w.projects.entries.flatMap fun e => projectLines e.1 e.2
  let changes := w.changes.values.map changeLine
  if changes.isEmpty then projects else projects ++ "" :: changes

end Landing.CommandLine
