import Landing.Submission.Batch
import Landing.Submission.Planning

/-!
# Dependencies

A change depends on the parents of its current commit.  A dependency is met when
a branch has the commit already, when the commit goes in with the same batch, or
when a merged change has it as its current patch set; an outdated patch set never
meets a dependency.  The first dependency that is not met makes a problem, and
the problems of all changes are reported together.
-/

namespace Landing.Validation

/-- Why a dependency on a commit of the change `owner` is not met, told to somebody who may not
see that change. -/
def classify (actor : AccountId) (commit dependsOn : CommitId) (owner : Change) :
    Planning Obstacle := do
  if ← Planning.ask (.isVisible actor owner) then
    match owner.patchSetAt? dependsOn, owner.currentPatchSet? with
    | some at_, some latest =>
      if at_.number = latest.number then pure (.notSubmitted commit dependsOn owner.id)
      else pure (.outdatedPatchSet commit dependsOn owner.id at_.number latest.number)
    | _, _ => pure (.notSubmitted commit dependsOn owner.id)
  else pure (.notVisibleOrDeleted commit dependsOn)

/-- A merged change whose current commit this is. -/
def settles (commit : CommitId) (owner : Change) : Bool :=
  owner.status == .merged && owner.currentCommit? == some commit

/-- The change with the lowest number; of equal numbers the first one listed. -/
def lowest? : List Change → Option Change
  | [] => none
  | c :: rest => some (rest.foldl (fun best o => if o.id < best.id then o else best) c)

/-- The first unmet dependency among the commits of a queue; a commit is looked at once. -/
def firstUnmet (actor : AccountId) (project : ProjectName) (own : CommitId)
    (batchCommits : List CommitId) :
    (seen : List CommitId) → (queue : List CommitId) → Planning (Option Obstacle)
  | _, [] => pure none
  | seen, c :: queue => do
    if seen.contains c || batchCommits.contains c then
      firstUnmet actor project own batchCommits (c :: seen) queue
    else if ← History.isAccepted project c then
      firstUnmet actor project own batchCommits (c :: seen) queue
    else
      let owners ← Planning.ask (.byCommit project c)
      if owners.any (settles c) then
        firstUnmet actor project own batchCommits (c :: seen) queue
      else
        match lowest? owners with
        | none => pure (some (.notVisibleOrDeleted own c))
        | some owner => some <$> classify actor own c owner

/-- The obstacle in the way of one change, if there is any. -/
def obstacle (actor : AccountId) (batchCommits : List CommitId) (change : Change) :
    Planning (Option Obstacle) := do
  match change.currentCommit? with
  | none => pure none
  | some own =>
    let ps ← History.parents change.dest.project own
    firstUnmet actor change.dest.project own batchCommits [] ps

/-- Fail with a report unless every dependency of the batch is met. -/
def check (actor : AccountId) (batch : Batch) : Planning Unit := do
  let found ← batch.changes.mapM fun change => do
    pure ((← obstacle actor batch.commits change).map fun o => Problem.mk change.id o)
  let problems := found.filterMap id
  if problems.isEmpty then pure ()
  else throw (.dependency ⟨batch.size, problems⟩)

end Landing.Validation
