import Landing.Change

/-!
# Bundles

What a preview archive holds for one project: the branches that would move, and
the commits that they would newly lead to, parents first.
-/

namespace Landing

/-- A branch that would move. -/
structure BundleRef where
  /-- The full name of the branch. -/
  branch : String
  old : Option CommitId
  new : CommitId
  deriving DecidableEq

/-- The refs and commits of one project. -/
structure Bundle where
  project : ProjectName
  refs : List BundleRef
  commits : List Commit
  deriving DecidableEq

namespace Bundle

/-- The name of the bundle's file in an archive. -/
def entryName (b : Bundle) : String := b.project ++ ".git"

def refToJson (r : BundleRef) : Json :=
  .object [("branch", .string r.branch), ("old", .ofOption CommitId.toJson r.old),
    ("new", r.new.toJson)]

def refOfJson? (j : Json) : Option BundleRef := do
  let r ← Json.Fields.ofJson? ["branch", "old", "new"] j
  let branch ← r.required "branch" Json.string?
  let old ← r.optional "old" none (Json.optionOf? CommitId.ofJson?)
  let new ← r.required "new" CommitId.ofJson?
  some ⟨branch, old, new⟩

def toJson (b : Bundle) : Json :=
  .object [("project", .string b.project), ("refs", .array (b.refs.map refToJson)),
    ("commits", .array (b.commits.map Commit.toJson))]

def ofJson? (j : Json) : Option Bundle := do
  let r ← Json.Fields.ofJson? ["project", "refs", "commits"] j
  let project ← r.required "project" Json.string?
  let refs ← r.required "refs" (Json.listOf? refOfJson?)
  let commits ← r.required "commits" (Json.listOf? Commit.ofJson?)
  some ⟨project, refs, commits⟩

/-- The text of the bundle's file. -/
def fileText (b : Bundle) : String := b.toJson.toIndentedText

end Bundle

end Landing
