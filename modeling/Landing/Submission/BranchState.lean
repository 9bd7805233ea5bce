import Landing.Submission.Problem

/-!
# The life of a branch within a submission

A branch starts idle, is resolved to a tip or aborted with a problem, and a
resolved branch is finally applied.
-/

namespace Landing

/-- How a branch reaches its tip. -/
inductive Resolution where
  /-- Every change is on the branch already. -/
  | alreadyMerged
  /-- The branch moves to an existing commit. -/
  | fastForward
  /-- At least one merge commit is made. -/
  | merge
  deriving DecidableEq

/-- Where a branch stands within a submission. -/
inductive BranchState where
  | idle
  | resolved (how : Resolution)
  | applied
  | aborted (problem : Problem)
  deriving DecidableEq

def Resolution.text : Resolution → String
  | alreadyMerged => "already-merged"
  | fastForward => "fast-forward"
  | merge => "merge"

namespace BranchState

/-- Nothing follows this state. -/
def isTerminal : BranchState → Bool
  | applied => true
  | aborted _ => true
  | _ => false

/-- The state after applying: a resolved branch is applied, any other state stays. -/
def markApplied : BranchState → BranchState
  | resolved _ => applied
  | s => s

/-- Whether applying changes the state. -/
def isResolved : BranchState → Bool
  | resolved _ => true
  | _ => false

/-- The problem of an aborted branch. -/
def problem? : BranchState → Option Problem
  | aborted p => some p
  | _ => none

end BranchState

end Landing
