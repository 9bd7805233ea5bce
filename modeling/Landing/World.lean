import Landing.Change
import Landing.Store.Error

/-!
# The world

Everything the stores hold: the commits and refs of every project, the change
records, the branches that are hidden from most accounts, and the accounts.
Tables keep all of it in order, so two worlds with the same content are equal.

This file holds what administrators and uploaders do.  What a submission may ask
of the stores is in `Landing.Store.Answer`.
-/

namespace Landing

/-- The commits of a project and where its branches point, by full name. -/
structure Project where
  commits : Table CommitId Commit
  refs : Table String CommitId
  deriving DecidableEq

/-- Everything the stores hold. -/
structure World where
  projects : Table ProjectName Project
  changes : Table ChangeId Change
  /-- The next change number to give out. -/
  nextId : ChangeId
  /-- The accounts that may read a hidden branch. -/
  hidden : Table Branch (Table AccountId Unit)
  accounts : Table AccountId Account
  deriving DecidableEq

namespace World

/-- The world without any content; change numbers start at one. -/
def empty : World where
  projects := .empty
  changes := .empty
  nextId := 1
  hidden := .empty
  accounts := .empty

/-! ### Projects -/

/-- The first commit of a project. -/
def rootDraft (project : ProjectName) (ident : Signature) : Draft where
  parents := []
  tree := .empty
  author := ident
  committer := ident
  message := "Initial empty repository for " ++ project

/-- The full name of the branch that a new project has. -/
def firstBranch : String := "refs/heads/master"

/-- Create a project with one empty commit, in place of any project of that name. -/
def createProject (w : World) (project : ProjectName) (ident : Signature) : CommitId × World :=
  let root := (rootDraft project ident).commit
  let state : Project :=
    ⟨Table.empty.insert root.id root, Table.empty.insert firstBranch root.id⟩
  (root.id, { w with projects := w.projects.insert project state })

/-- The project of that name. -/
def project? (w : World) (project : ProjectName) : Except StoreError Project :=
  match w.projects.get? project with
  | some p => .ok p
  | none => .error (.projectNotFound project)

/-- Replace the state of a project. -/
def setProject (w : World) (project : ProjectName) (p : Project) : World :=
  { w with projects := w.projects.insert project p }

/-- Store a commit under its own name; what is stored under that name already stays. -/
def putCommit (w : World) (project : ProjectName) (draft : Draft) :
    Except StoreError (Commit × World) :=
  match w.project? project with
  | .error e => .error e
  | .ok p =>
    let commit := draft.commit
    if p.commits.contains commit.id then .ok (commit, w)
    else .ok (commit, w.setProject project { p with commits := p.commits.insert commit.id commit })

/-- Point a branch at a commit, whether or not it exists. -/
def setBranch (w : World) (branch : Branch) (tip : CommitId) : Except StoreError World :=
  match w.project? branch.project with
  | .error e => .error e
  | .ok p => .ok (w.setProject branch.project { p with refs := p.refs.insert branch.name tip })

/-- Where a branch of a known project points. -/
def branchTip (w : World) (branch : Branch) : Except StoreError (Option CommitId) :=
  (w.project? branch.project).map fun p => p.refs.get? branch.name

/-- Where a branch points, if there is such a branch. -/
def tip? (w : World) (branch : Branch) : Option CommitId :=
  (w.projects.get? branch.project).bind fun p => p.refs.get? branch.name

/-- The commit of that name, if it is stored. -/
def commit? (w : World) (project : ProjectName) (id : CommitId) : Option Commit :=
  (w.projects.get? project).bind fun p => p.commits.get? id

/-- The number of commits stored in a project. -/
def commitCount (w : World) (project : ProjectName) : Nat :=
  match w.projects.get? project with
  | some p => p.commits.size
  | none => 0

/-- Every branch of every project with its tip, by project and name as stored. -/
def refs (w : World) : List (Branch × CommitId) :=
  w.projects.entries.flatMap fun e => e.2.refs.entries.map fun r => (⟨e.1, r.1⟩, r.2)

/-! ### Changes -/

/-- Give out the next change number; after the last one comes zero. -/
def allocate (w : World) : ChangeId × World := (w.nextId, { w with nextId := w.nextId + 1 })

/-- Store a change; the next number given out is greater than the change's own. -/
def insertChange (w : World) (c : Change) : World :=
  { w with changes := w.changes.insert c.id c, nextId := max w.nextId (c.id + 1) }

/-- Change a stored change record. -/
def updateChange (w : World) (id : ChangeId) (f : Change → Change) : Except StoreError World :=
  match w.changes.get? id with
  | some c => .ok { w with changes := w.changes.insert id (f c) }
  | none => .error (.changeNotFound id)

/-- Remove a change. -/
def deleteChange (w : World) (id : ChangeId) : World := { w with changes := w.changes.erase id }

/-- The changes of a project with any patch set at a commit, by number. -/
def changesAt (w : World) (project : ProjectName) (commit : CommitId) : List Change :=
  w.changes.values.filter fun c => c.dest.project == project && (c.patchSetAt? commit).isSome

/-- The open changes with a topic, in any project, by number. -/
def openOnTopic (w : World) (topic : String) : List Change :=
  w.changes.values.filter fun c => c.isOpen && c.topic == some topic

/-! ### Accounts and visibility -/

/-- Let only the given accounts read a branch. -/
def hideBranch (w : World) (branch : Branch) (readers : List AccountId) : World :=
  { w with hidden := w.hidden.insert branch (Table.ofList (readers.map fun a => (a, ()))) }

/-- Whether an account may read a branch. -/
def canRead (w : World) (actor : AccountId) (branch : Branch) : Bool :=
  match w.hidden.get? branch with
  | some readers => readers.contains actor
  | none => true

/-- Whether an account sees a change: the owner sees a change for the owner only, and a change on
a hidden branch is for the readers of the branch. -/
def isVisible (w : World) (actor : AccountId) (c : Change) : Bool :=
  if c.ownerOnly && c.owner != actor then false else w.canRead actor c.dest

/-- Add or replace an account. -/
def addAccount (w : World) (a : Account) : World := { w with accounts := w.accounts.insert a.id a }

/-- No walk over the history of a project, and no search over the changes, meets more commits or
changes than this, commits that a submission would add included. -/
def reach (w : World) : Nat :=
  (w.projects.values.flatMap (·.commits.entries)).length + 2 * w.changes.size + 2

end World

end Landing
