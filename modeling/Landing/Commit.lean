import Landing.Commit.Id
import Landing.Json.Printer
import Landing.Text.Layout
import Landing.Tree

/-!
# Commits

A draft holds everything that makes a commit: its parents in order, its files,
who wrote and who committed it, and its message.  The name of the commit is the
digest of the draft's canonical text, so drafts with the same content have the
same name and nothing but the content enters it.

A commit that was read from a file carries the name it was read with.
-/

namespace Landing

/-- Who wrote or committed something. -/
structure Signature where
  name : String
  email : String
  deriving DecidableEq

/-- The content of a commit. -/
structure Draft where
  parents : List CommitId
  tree : Tree
  author : Signature
  committer : Signature
  message : String
  deriving DecidableEq

/-- A commit under its name. -/
structure Commit extends Draft where
  id : CommitId
  deriving DecidableEq

namespace Signature

/-- Name and address, as a mail header shows them. -/
def text (s : Signature) : String := s.name ++ " <" ++ s.email ++ ">"

def toJson (s : Signature) : Json := .object [("name", .string s.name), ("email", .string s.email)]

def ofJson? (j : Json) : Option Signature := do
  let r ← Json.Fields.ofJson? ["name", "email"] j
  let name ← r.required "name" Json.string?
  let email ← r.required "email" Json.string?
  some ⟨name, email⟩

end Signature

namespace Draft

/-- The members of a draft's record, in their declared order. -/
def members (d : Draft) : List (String × Json) :=
  [("parents", .array (d.parents.map CommitId.toJson)),
   ("tree", d.tree.toJson),
   ("author", d.author.toJson),
   ("committer", d.committer.toJson),
   ("message", .string d.message)]

def toJson (d : Draft) : Json := .object d.members

/-- The names of a draft's fields. -/
def fieldNames : List String := ["parents", "tree", "author", "committer", "message"]

/-- Read a draft from the fields of a record. -/
def ofFields? (r : Json.Fields) : Option Draft := do
  let parents ← r.required "parents" (Json.listOf? CommitId.ofJson?)
  let tree ← r.required "tree" Tree.ofJson?
  let author ← r.required "author" Signature.ofJson?
  let committer ← r.required "committer" Signature.ofJson?
  let message ← r.required "message" Json.string?
  some { parents, tree, author, committer, message }

def ofJson? (j : Json) : Option Draft :=
  (Json.Fields.ofJson? fieldNames j).bind ofFields?

/-- The text that is digested to name the commit. -/
def canonical (d : Draft) : String := d.toJson.toText

/-- The name of the commit with this content. -/
def id (d : Draft) : CommitId := .ofContent d.canonical

/-- The commit with this content, under its own name. -/
def commit (d : Draft) : Commit := { d with id := d.id }

end Draft

namespace Commit

/-- The first line of the message. -/
def subject (c : Commit) : String := Text.firstLine c.message

/-- A commit with several parents. -/
def isMerge (c : Commit) : Bool := 1 < c.parents.length

def toJson (c : Commit) : Json := .object (("id", c.id.toJson) :: c.toDraft.members)

def ofJson? (j : Json) : Option Commit := do
  let r ← Json.Fields.ofJson? ("id" :: Draft.fieldNames) j
  let id ← r.required "id" CommitId.ofJson?
  let draft ← Draft.ofFields? r
  some { draft with id }

end Commit

end Landing
