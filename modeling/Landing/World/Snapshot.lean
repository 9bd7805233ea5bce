import Landing.Json.Printer
import Landing.Json.Reader
import Landing.World

/-!
# Saved worlds

A world is saved as one JSON record with four sections: projects, changes,
accounts and hidden branches, each in the order of its keys.  A section that is
missing is empty.  Reading builds the world entry by entry, so a later entry with
the same key replaces an earlier one; commit names are taken as they stand.

The counter for change numbers is not saved: it follows from the changes.
-/

namespace Landing

namespace Project

def toJson (name : ProjectName) (p : Project) : Json :=
  .object [
    ("name", .string name),
    ("commits", .array (p.commits.values.map Commit.toJson)),
    ("branches", .object (p.refs.entries.map fun r => (r.1, r.2.toJson)))]

/-- Read a project with its name. -/
def ofJson? (j : Json) : Option (ProjectName × Project) := do
  let r ← Json.Fields.ofJson? ["name", "commits", "branches"] j
  let name ← r.required "name" Json.string?
  let commits ← r.required "commits" (Json.listOf? Commit.ofJson?)
  let refs ← r.required "branches" (Json.membersOf? CommitId.ofJson?)
  some (name, ⟨Table.ofList (commits.map fun c => (c.id, c)), Table.ofList refs⟩)

end Project

namespace World

def hiddenToJson (branch : Branch) (readers : Table AccountId Unit) : Json :=
  .object [("branch", branch.toJson), ("readers", .array (readers.keys.map fun a => .nat a.toNat))]

/-- Read a hidden branch with its readers. -/
def hiddenOfJson? (j : Json) : Option (Branch × List AccountId) := do
  let r ← Json.Fields.ofJson? ["branch", "readers"] j
  let branch ← r.required "branch" Branch.ofJson?
  let readers ← r.optional "readers" [] (Json.listOf? Json.word?)
  some (branch, readers)

/-- The saved form of a world. -/
def toJson (w : World) : Json :=
  .object [
    ("projects", .array (w.projects.entries.map fun e => Project.toJson e.1 e.2)),
    ("changes", .array (w.changes.values.map Change.toJson)),
    ("accounts", .array (w.accounts.values.map Account.toJson)),
    ("hidden_branches", .array (w.hidden.entries.map fun e => hiddenToJson e.1 e.2))]

/-- The world with these entries; of entries with equal keys the last counts. -/
def ofEntries (projects : List (ProjectName × Project)) (changes : List Change)
    (accounts : List Account) (hidden : List (Branch × List AccountId)) : World :=
  let w := { empty with projects := Table.ofList projects }
  let w := changes.foldl insertChange w
  let w := hidden.foldl (fun w h => w.hideBranch h.1 h.2) w
  accounts.foldl addAccount w

/-- Read a world from its saved form. -/
def ofJson? (j : Json) : Option World := do
  let r ← Json.Fields.ofJson? ["projects", "changes", "accounts", "hidden_branches"] j
  let projects ← r.optional "projects" [] (Json.listOf? Project.ofJson?)
  let changes ← r.optional "changes" [] (Json.listOf? Change.ofJson?)
  let accounts ← r.optional "accounts" [] (Json.listOf? Account.ofJson?)
  let hidden ← r.optional "hidden_branches" [] (Json.listOf? hiddenOfJson?)
  some (ofEntries projects changes accounts hidden)

/-- Where every branch points and how far every change has come, as a record: the part of a world
that submissions change. -/
def progressJson (w : World) : Json :=
  let refs := w.projects.entries.flatMap fun e =>
    e.2.refs.entries.map fun r => (Branch.named e.1 r.1, r.2)
  .object [
    ("refs", Json.ofList
      (fun r => .array [.string r.1.project, .string r.1.name, r.2.toJson]) refs),
    ("changes", Json.ofList
      (fun c => .array [.ofWord c.id, .string c.status.text, .ofOption .ofWord c.submitter,
        .ofOption CommitId.toJson c.mergedAs]) w.changes.values)]

/-- The text that saving writes. -/
def save (w : World) : String := w.toJson.toIndentedText

/-- The world that a text holds. -/
def load? (text : String) : Option World := (Json.ofText? text).bind ofJson?

/-- The world as it is after it was saved and loaded. -/
def reload (w : World) : World :=
  ofEntries w.projects.entries w.changes.values w.accounts.values
    (w.hidden.entries.map fun e => (e.1, e.2.keys))

end World

end Landing
