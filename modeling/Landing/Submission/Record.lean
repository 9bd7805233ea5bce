import Landing.Json.Record
import Landing.Submission.Plan
import Landing.Submission.Transaction

/-!
# Submissions as records

What a submission plans, does, or fails with, written as JSON for other programs
to read.  Every record names commits in full and branches by project and full
name.
-/

namespace Landing

open Json (ofWord ofList)

namespace Problem

/-- The kind of an obstacle. -/
def kindOf : Obstacle → String
  | .notSubmitted .. => "not_submitted"
  | .outdatedPatchSet .. => "outdated_patch_set"
  | .notVisibleOrDeleted .. => "not_visible_or_deleted"
  | .pathConflict .. => "path_conflict"
  | .fastForwardRequired => "fast_forward_required"

/-- What a record of an obstacle holds besides its kind. -/
def detailsOf : Obstacle → List (String × Json)
  | .notSubmitted commit dependsOn owner =>
    [("commit", commit.toJson), ("depends_on", dependsOn.toJson), ("owner", ofWord owner)]
  | .outdatedPatchSet commit dependsOn owner patchSet latest =>
    [("commit", commit.toJson), ("depends_on", dependsOn.toJson), ("owner", ofWord owner),
      ("patch_set", ofWord patchSet), ("latest", ofWord latest)]
  | .notVisibleOrDeleted commit dependsOn =>
    [("commit", commit.toJson), ("depends_on", dependsOn.toJson)]
  | .pathConflict paths => [("paths", ofList .string paths)]
  | .fastForwardRequired => []

def toJson (p : Problem) : Json :=
  .object (("change", ofWord p.change) :: ("kind", .string (kindOf p.obstacle)) ::
    detailsOf p.obstacle)

end Problem

/-- The members of a record that holds a report. -/
def Report.members (r : Report) : List (String × Json) :=
  [("batch_size", .nat r.batchSize), ("problems", ofList Problem.toJson r.problems),
    ("changes", ofList ofWord r.changes)]

/-- What a record of a failure holds besides its kind, its words, and whether to try again. -/
def Failure.details : Failure → List (String × Json)
  | dependency report => report.members
  | conflict report => report.members
  | concurrentModification branch expected actual =>
    [("branch", branch.toJson), ("expected", .ofOption CommitId.toJson expected),
      ("actual", .ofOption CommitId.toJson actual)]
  | rollbackFailed step _ => [("step", .string step)]
  | _ => []

/-- The state of a branch: its name, or the problem it was aborted with. -/
def BranchState.toJson : BranchState → Json
  | idle => .string "idle"
  | resolved how => .string ("resolved:" ++ how.text)
  | applied => .string "applied"
  | aborted p => .object [("aborted", p.toJson), ("text", .string p.message)]

def BranchPlan.toJson (p : BranchPlan) : Json :=
  .object [
    ("branch", .string p.branch.text),
    ("strategy", .string p.strategy.text),
    ("old_tip", .ofOption CommitId.toJson p.oldTip),
    ("new_tip", .ofOption CommitId.toJson p.newTip),
    ("changes", ofList ofWord p.changes),
    ("merges", ofList CommitId.toJson p.merges),
    ("fast_forwards", .nat p.fastForwards),
    ("state", p.state.toJson),
    ("terminal", .bool p.state.isTerminal),
    ("moves_ref", .bool p.movesRef)]

def Segment.toJson (s : Segment) : Json :=
  .object [
    ("branch", .string s.branch.text),
    ("changes", ofList (fun c => ofWord c.id) s.changes),
    ("heads", ofList ofWord s.heads),
    ("head_changes", ofList (fun c => ofWord c.id) s.headChanges)]

/-- Tips as triples of project, branch and commit, in branch order. -/
def tipsToJson (tips : Table Branch CommitId) : Json :=
  ofList (fun e => .array [.string e.1.project, .string e.1.name, e.2.toJson]) tips.entries

/-- A drafted commit as a record under its name. -/
def Draft.namedJson (d : Draft) : Json := .object [("id", d.id.toJson), ("commit", d.toJson)]

def Plan.toJson (p : Plan) : Json :=
  .object [
    ("requested", ofWord p.requested),
    ("actor", ofWord p.actor.id),
    ("size", .nat p.batch.size),
    ("empty", .bool (p.batch.size == 0)),
    ("segments", ofList Segment.toJson p.batch.segments),
    ("branches", ofList BranchPlan.toJson p.branches),
    ("new_commits", .object (p.newCommits.entries.map fun e => (e.1, ofList Draft.namedJson e.2))),
    ("tips", tipsToJson p.tips),
    ("affected", ofList .string p.affectedProjects),
    ("merge_commits", .nat p.mergeCount),
    ("fast_forwards", .nat p.fastForwardCount)]

def TakenStep.toJson : TakenStep → Json
  | refSwap branch old new =>
    .object [("ref", .string branch.text), ("old", .ofOption CommitId.toJson old),
      ("new", new.toJson)]
  | markMerged change => .object [("change", ofWord change)]

end Landing
