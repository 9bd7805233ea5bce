import Landing.Submission.Plan
import Landing.Submission.Transaction

/-!
# Applying a plan

The merge commits are stored first; a stored commit that no branch leads to is
harmless and is never taken back.  Then every moving branch is swapped from the
tip that was seen, and every change is recorded as merged.  If a step fails, the
steps before it are undone and the failure is reported, unless undoing fails too.
-/

namespace Landing.Plan

/-- The steps of a plan: branches first, then changes. -/
def steps (p : Plan) : List Step :=
  (p.moving.filterMap fun b => b.newTip.map fun tip => .swap b.branch b.oldTip tip) ++
  p.branches.flatMap fun b =>
    match b.newTip with
    | some tip => b.changes.map fun c => .mark c tip p.actor.id
    | none => []

/-- The merge commits of a plan with their projects, in the order in which they are stored. -/
def inserts (p : Plan) : List (ProjectName × Draft) :=
  p.newCommits.entries.flatMap fun e => e.2.map fun d => (e.1, d)

/-- Store commits in order until one cannot be stored. -/
def storeAll : List (ProjectName × Draft) → Program (Except Failure Unit)
  | [] => pure (.ok ())
  | (project, d) :: rest => do
    match ← Program.ask (.insertCommit project d) with
    | .ok _ => storeAll rest
    | .error e => pure (.error (.storage e))

/-- Carry the plan out, all or nothing. The result is the log of the steps with the applied plan. -/
def apply (p : Plan) : Program (Except Failure (List TakenStep × Plan)) := do
  match ← storeAll p.inserts with
  | .error failure => pure (.error failure)
  | .ok _ =>
    let (log, failure?) ← Transaction.perform p.steps []
    match failure? with
    | none => pure (.ok (log, p.markApplied))
    | some cause =>
      Program.tell (.rolledBack log.length cause)
      match ← Transaction.rollback log with
      | .ok _ => pure (.error cause)
      | .error failure => pure (.error failure)

end Landing.Plan
