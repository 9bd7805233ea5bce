import Landing.Store.Error

/-!
# Store calls

The questions and orders that a submission puts to the stores, and what a
successful answer to each holds.  A call names everything its answer depends on
besides the state of the stores.
-/

namespace Landing

/-- A question or an order to the stores. -/
inductive StoreCall where
  /-- Read a commit. -/
  | commit (project : ProjectName) (id : CommitId)
  /-- List the branches of a project with their tips. -/
  | branches (project : ProjectName)
  /-- Store a commit under its own name. -/
  | insertCommit (project : ProjectName) (draft : Draft)
  /-- Move a branch from where it is expected; a missing tip stands for a missing branch. -/
  | compareAndSwap (branch : Branch) (expected new : Option CommitId)
  /-- Read a change. -/
  | get (id : ChangeId)
  /-- List the changes of a project with any patch set at a commit. -/
  | byCommit (project : ProjectName) (commit : CommitId)
  /-- List the open changes with a topic. -/
  | openByTopic (topic : String)
  /-- Record that a change went in with a tip. -/
  | markMerged (id : ChangeId) (tip : CommitId) (submitter : AccountId)
  /-- Take back what `markMerged` recorded. -/
  | reopen (id : ChangeId)
  /-- Ask whether an account sees a change. -/
  | isVisible (actor : AccountId) (change : Change)

namespace StoreCall

/-- What a successful answer holds. -/
@[reducible] def Reply : StoreCall → Type
  | commit .. => Commit
  | branches .. => List (Branch × CommitId)
  | insertCommit .. => CommitId
  | compareAndSwap .. => Unit
  | get .. => Option Change
  | byCommit .. => List Change
  | openByTopic .. => List Change
  | markMerged .. => Unit
  | reopen .. => Unit
  | isVisible .. => Bool

def name : StoreCall → String
  | commit .. => "commit"
  | branches .. => "branches"
  | insertCommit .. => "insert_commit"
  | compareAndSwap .. => "compare_and_swap"
  | get .. => "get"
  | byCommit .. => "by_commit"
  | openByTopic .. => "open_by_topic"
  | markMerged .. => "mark_merged"
  | reopen .. => "reopen"
  | isVisible .. => "is_visible"

end StoreCall

end Landing
