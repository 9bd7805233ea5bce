import Landing.Submission.BranchPlan

/-!
# Plans

Everything a submission will do, worked out before anything is done: the batch,
the plan of every branch, and the merge commits to store.  The events that
observers are told afterwards follow from the plan.
-/

namespace Landing

/-- What a submission will do. -/
structure Plan where
  requested : ChangeId
  actor : Account
  batch : Batch
  /-- One plan per branch, in branch order. -/
  branches : List BranchPlan
  /-- The merge commits to store before any branch moves. -/
  newCommits : Table ProjectName (List Draft)
  deriving DecidableEq

/-- The events of applied branch plans: first every branch that moved, then every change. -/
def BranchPlan.events (branches : List BranchPlan) (submitter : AccountId) : List Event :=
  ((branches.filter (·.movesRef)).filterMap fun p =>
    p.newTip.map fun new => .refUpdated p.branch p.oldTip new) ++
  branches.flatMap fun p =>
    match p.newTip with
    | some tip => p.changes.map fun c => .changeMerged c p.branch tip submitter
    | none => []

namespace Plan

/-- The branches that move, with their plans. -/
def moving (p : Plan) : List BranchPlan := p.branches.filter (·.movesRef)

/-- The tip of every branch that moves. -/
def tips (p : Plan) : Table Branch CommitId :=
  Table.ofList (p.moving.filterMap fun b => b.newTip.map fun tip => (b.branch, tip))

/-- The projects of the branches that move; neighbours with the same project count once. -/
def affectedProjects (p : Plan) : List ProjectName :=
  dropRepeats (p.moving.map fun b => b.branch.project)
where
  /-- Of equal neighbours keep the first. -/
  dropRepeats : List ProjectName → List ProjectName
    | [] => []
    | a :: rest =>
      match dropRepeats rest with
      | [] => [a]
      | b :: rest => if a = b then b :: rest else a :: b :: rest

/-- The number of drafted merge commits. -/
def mergeCount (p : Plan) : Nat := (p.branches.flatMap (·.merges)).length

/-- The number of fast-forwards. -/
def fastForwardCount (p : Plan) : Nat := p.branches.foldl (fun n b => n + b.fastForwards) 0

/-- The plan after every step was taken. -/
def markApplied (p : Plan) : Plan :=
  { p with branches := p.branches.map fun b => { b with state := b.state.markApplied } }

/-- The events of the applied plan. -/
def events (p : Plan) : List Event := BranchPlan.events p.branches p.actor.id

end Plan

end Landing
