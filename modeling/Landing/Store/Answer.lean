import Landing.Store.Call
import Landing.World

/-!
# How a world answers store calls

Each call is answered at once, and only four kinds of calls change the world:
storing a commit, moving a branch, and the two that write change records.  A
branch moves only from where it is expected and only to a stored commit.
-/

namespace Landing.World

/-- Point a branch of a project at a tip, or remove it. -/
def pointRef (p : Project) (name : String) : Option CommitId → Project
  | some tip => { p with refs := p.refs.insert name tip }
  | none => { p with refs := p.refs.erase name }

/-- Move a branch from `expected` to `new`. -/
def compareAndSwap (w : World) (branch : Branch) (expected new : Option CommitId) :
    Except StoreError World :=
  match w.project? branch.project with
  | .error e => .error e
  | .ok p =>
    let actual := p.refs.get? branch.name
    if actual ≠ expected then .error (.refConflict branch expected actual)
    else
      match new with
      | some tip =>
        if p.commits.contains tip then
          .ok (w.setProject branch.project (pointRef p branch.name (some tip)))
        else .error (.commitNotFound branch.project tip)
      | none => .ok (w.setProject branch.project (pointRef p branch.name none))

def readCommit (w : World) (project : ProjectName) (id : CommitId) : Except StoreError Commit :=
  match w.project? project with
  | .error e => .error e
  | .ok p =>
    match p.commits.get? id with
    | some c => .ok c
    | none => .error (.commitNotFound project id)

/-- The branches of a project under their full names, in the order of the stored names. -/
def branches (w : World) (project : ProjectName) : Except StoreError (List (Branch × CommitId)) :=
  (w.project? project).map fun p => p.refs.entries.map fun r => (Branch.named project r.1, r.2)

/-- The result of an order, with the world it leaves behind. -/
def settle (w : World) (answer : Except StoreError (α × World)) : Except StoreError α × World :=
  match answer with
  | .ok (a, w) => (.ok a, w)
  | .error e => (.error e, w)

/-- Answer a call. -/
def answer (w : World) : (c : StoreCall) → Except StoreError c.Reply × World
  | .commit project id => (w.readCommit project id, w)
  | .branches project => (w.branches project, w)
  | .insertCommit project draft =>
    w.settle ((w.putCommit project draft).map fun r => (r.1.id, r.2))
  | .compareAndSwap branch expected new =>
    w.settle ((w.compareAndSwap branch expected new).map fun w => ((), w))
  | .get id => (.ok (w.changes.get? id), w)
  | .byCommit project commit => (.ok (w.changesAt project commit), w)
  | .openByTopic topic => (.ok (w.openOnTopic topic), w)
  | .markMerged id tip submitter =>
    w.settle ((w.updateChange id (·.markMerged tip submitter)).map fun w => ((), w))
  | .reopen id => w.settle ((w.updateChange id Change.reopen).map fun w => ((), w))
  | .isVisible actor change => (.ok (w.isVisible actor change), w)

end Landing.World
