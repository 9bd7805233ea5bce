import Landing.Change

/-!
# Problems of a batch

What keeps a change from going in, change by change.  A report names the size of
the batch and every problem in batch order, so that all of them are seen at once.
-/

namespace Landing

/-- Why one change cannot go in. -/
inductive Obstacle where
  /-- A commit below belongs to a visible change that is not part of the batch. -/
  | notSubmitted (commit dependsOn : CommitId) (owner : ChangeId)
  /-- A commit below is an old patch set of a visible change. -/
  | outdatedPatchSet (commit dependsOn : CommitId) (owner : ChangeId) (patchSet latest : UInt32)
  /-- A commit below belongs to no change, or to one that the submitter does not see. -/
  | notVisibleOrDeleted (commit dependsOn : CommitId)
  /-- Both sides of the merge changed these paths. -/
  | pathConflict (paths : List String)
  /-- The branch only moves by fast-forward, and this change needs a merge. -/
  | fastForwardRequired
  deriving DecidableEq

/-- An obstacle with the change it stands in the way of. -/
structure Problem where
  change : ChangeId
  obstacle : Obstacle
  deriving DecidableEq

/-- All problems of one batch. -/
structure Report where
  /-- The number of changes in the batch. -/
  batchSize : Nat
  problems : List Problem
  deriving DecidableEq

namespace Obstacle

/-- How every message about a commit below begins. -/
def dependencyNotice (commit dependsOn : CommitId) : String :=
  "Depends on change that was not submitted. Commit " ++ commit.text ++ " depends on commit " ++
    dependsOn.text

/-- The obstacle in words. -/
def message : Obstacle → String
  | notSubmitted commit dependsOn owner =>
    dependencyNotice commit dependsOn ++ " of change " ++ toString owner.toNat ++
      " which cannot be merged."
  | outdatedPatchSet commit dependsOn owner patchSet latest =>
    dependencyNotice commit dependsOn ++ ", which is outdated patch set " ++
      toString patchSet.toNat ++ " of change " ++ toString owner.toNat ++
      ". The latest patch set is " ++ toString latest.toNat ++ "."
  | notVisibleOrDeleted commit dependsOn =>
    dependencyNotice commit dependsOn ++ " which cannot be merged. Is the change of this commit " ++
      "not visible or was it deleted?"
  | pathConflict _ =>
    "Change could not be merged due to a path conflict. Please rebase the change locally and " ++
      "upload the rebased commit for review."
  | fastForwardRequired =>
    "Project policy requires all submissions to be a fast-forward. Please rebase the change " ++
      "locally and upload again for review."

end Obstacle

/-- The problem in words. -/
def Problem.message (p : Problem) : String :=
  "Change " ++ toString p.change.toNat ++ ": " ++ p.obstacle.message

namespace Report

/-- The report in words: a heading and one line per problem. -/
def message (r : Report) : String :=
  "Failed to submit " ++ toString r.batchSize ++
    (if r.batchSize = 1 then " change" else " changes") ++
    " due to the following problems:" ++ String.join (r.problems.map fun p => "\n" ++ p.message)

/-- The changes with a problem. -/
def changes (r : Report) : List ChangeId := r.problems.map (·.change)

end Report

end Landing
