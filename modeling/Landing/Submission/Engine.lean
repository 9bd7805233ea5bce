import Landing.Archive
import Landing.Submission.Apply
import Landing.Submission.Closure
import Landing.Submission.Validation

/-!
# Submitting and previewing

A request names a change and an account.  Planning checks that the change exists,
is visible and is open, gathers and orders what must go in with it, checks the
dependencies, and resolves every branch.  Planning asks the stores and orders
nothing, so a preview leaves no trace.

A submission plans, applies the plan, and publishes the events.  It either ends
with an outcome or with a failure, and both are signalled.
-/

namespace Landing

/-- What a submission did. -/
structure Outcome where
  /-- The branches that moved with their new tips. -/
  tips : Table Branch CommitId
  /-- The changes that went in, in batch order. -/
  merged : List ChangeId
  deriving DecidableEq

/-- What a preview shows. -/
inductive Preview where
  | tips (tips : Table Branch CommitId)
  | archive (archive : Archive)
  deriving DecidableEq

namespace Submission

/-- The requested change, if it may be submitted by the account. -/
def requestedChange (change : ChangeId) (actor : Account) : Planning Change := do
  match ← Planning.ask (.get change) with
  | none => throw (.notFound change)
  | some requested =>
    if ← Planning.ask (.isVisible actor.id requested) then
      if requested.isOpen then pure requested
      else throw (.notOpen change requested.status)
    else throw (.notVisible change)

/-- Resolve a branch, and tell how unless it was aborted. -/
def resolveSegment (policy : Policy) (actor : Account) (segment : Segment) :
    Planning BranchPlan := do
  let plan ← Planning.read (BranchPlan.compute policy actor segment)
  match plan.state with
  | .resolved how => Planning.tell (.branchResolved plan.branch how plan.newTip)
  | _ => pure ()
  pure plan

/-- Work out everything that submitting a change would do. -/
def plan (policy : Policy) (change : ChangeId) (actor : Account) : Planning Plan := do
  let requested ← requestedChange change actor
  let members ← Closure.compute policy.wholeTopic actor.id requested
  let batch ← Planning.read (Batch.order members)
  Planning.tell (.closure batch.size batch.segments.length policy.wholeTopic)
  Validation.check actor.id batch
  let branches ← batch.segments.mapM (resolveSegment policy actor)
  let problems := branches.filterMap fun b => b.state.problem?
  if problems.isEmpty then
    pure { requested := change, actor, batch, branches, newCommits := (← get).created }
  else throw (.conflict ⟨batch.size, problems⟩)

/-- Run a planning with a history that knows nothing yet. -/
def withHistory (budget : Nat) (x : Planning α) : Program (Except Failure α) := do
  pure (← x.run (History.start budget)).1

/-! ### Previews -/

/-- The tips that a submission would produce. -/
def preview (policy : Policy) (budget : Nat) (change : ChangeId) (actor : Account) :
    Program (Except Failure (Table Branch CommitId)) := do
  Program.tell (.started change actor.id true)
  pure ((← withHistory budget (plan policy change actor)).map Plan.tips)

/-- What an archive holds for one project of a plan. -/
def bundle (p : Plan) (project : ProjectName) : Planning Bundle := do
  let moves := (p.moving.filter (·.branch.project == project)).filterMap fun b =>
    b.newTip.map fun new => BundleRef.mk b.branch.name b.oldTip new
  let reachable ← Planning.read (History.unacceptedAncestry project (moves.map (·.new)))
  let ids ← Planning.read (History.parentsFirst project reachable)
  let commits ← ids.mapM fun id => Planning.read (History.commit project id)
  pure ⟨project, moves, commits⟩

/-- The bundles that an archive of a submission would hold. -/
def bundles (policy : Policy) (change : ChangeId) (actor : Account) : Planning (List Bundle) := do
  let p ← plan policy change actor
  p.affectedProjects.mapM (bundle p)

/-- An archive of what a submission would produce. -/
def previewArchive (policy : Policy) (budget : Nat) (change : ChangeId) (actor : Account)
    (format : ArchiveFormat) : Program (Except Failure Archive) := do
  Program.tell (.started change actor.id true)
  let packed ← withHistory budget (bundles policy change actor)
  pure (packed.bind (Archive.build format))

/-- A preview in the wanted form; a format that does not exist is refused before anything else. -/
def previewAs (policy : Policy) (budget : Nat) (change : ChangeId) (actor : Account)
    (format : Option String) : Program (Except Failure Preview) := do
  match format with
  | none => pure ((← preview policy budget change actor).map .tips)
  | some name =>
    match ArchiveFormat.parse name with
    | .error failure => pure (.error failure)
    | .ok format => pure ((← previewArchive policy budget change actor format).map .archive)

/-! ### Submissions -/

/-- Publish events in order. -/
def publish : List Event → Program Unit
  | [] => pure ()
  | e :: rest => do
    Program.tell (.published e)
    publish rest

/-- Plan and apply. -/
def planAndApply (policy : Policy) (budget : Nat) (change : ChangeId) (actor : Account) :
    Program (Except Failure Plan) := do
  match ← withHistory budget (plan policy change actor) with
  | .error failure => pure (.error failure)
  | .ok p =>
    match ← p.apply with
    | .error failure => pure (.error failure)
    | .ok (_, applied) => pure (.ok applied)

/-- Land a change with everything that must go in with it, all or nothing. -/
def submit (policy : Policy) (budget : Nat) (change : ChangeId) (actor : Account) :
    Program (Except Failure Outcome) := do
  Program.tell (.started change actor.id false)
  match ← planAndApply policy budget change actor with
  | .error failure =>
    Program.tell (.rejected failure)
    pure (.error failure)
  | .ok p =>
    Program.tell (.applied p.tips.size p.batch.size p.fastForwardCount p.mergeCount)
    publish p.events
    pure (.ok ⟨p.tips, p.batch.changes.map (·.id)⟩)

end Submission

end Landing
