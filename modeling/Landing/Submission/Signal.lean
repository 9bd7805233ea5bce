import Landing.Event
import Landing.Submission.BranchState
import Landing.Submission.Failure

/-!
# Signals

What a submission tells observers while it runs: the stages it passes, and the
events it publishes at the end.  The log lines and the counters below are
functions of the signals, so what is logged and what is counted cannot disagree.
-/

namespace Landing

/-- A notice that a running submission gives. -/
inductive Signal where
  /-- A submission or a preview begins. -/
  | started (change : ChangeId) (actor : AccountId) (preview : Bool)
  /-- The changes that go in together are known. -/
  | closure (size branches : Nat) (wholeTopic : Bool)
  | branchResolved (branch : Branch) (how : Resolution) (tip : Option CommitId)
  /-- The submission ends without a result. -/
  | rejected (failure : Failure)
  /-- Every planned step was taken. -/
  | applied (branches changes fastForwards merges : Nat)
  /-- A step failed after `undone` steps, which are about to be undone. -/
  | rolledBack (undone : Nat) (cause : Failure)
  /-- A step could not be undone. -/
  | compensationFailed (step : String) (error : StoreError)
  | published (event : Event)
  deriving DecidableEq

/-- How urgent a log line is. -/
inductive LogLevel where
  | info
  | warn
  deriving DecidableEq

/-- A log line: its level and its fields. -/
structure LogRecord where
  level : LogLevel
  fields : List (String × Json)

namespace LogLevel

def text : LogLevel → String
  | info => "INFO"
  | warn => "WARN"

end LogLevel

namespace LogRecord

/-- A log line as a record: its level and its fields. -/
def toJson (r : LogRecord) : Json := .object (("level", .string r.level.text) :: r.fields)

/-- A log line at the usual level, with the name of what happened. -/
def happened (event : String) (fields : List (String × Json)) : LogRecord :=
  ⟨.info, ("event", .string event) :: fields⟩

end LogRecord

/-- The log line of an event. -/
def Event.logRecord : Event → LogRecord
  | refUpdated branch old new =>
    .happened "ref-updated" [
      ("branch", .string branch.text),
      ("old", .string (CommitId.shortTip old)),
      ("new", .string new.short)]
  | changeMerged change branch mergedAs submitter =>
    .happened "change-merged" [
      ("change", .string (toString change.toNat)),
      ("branch", .string branch.text),
      ("merged_as", .string mergedAs.short),
      ("submitter", .string (toString submitter.toNat))]

namespace Signal

/-- The log line of a signal. -/
def logRecord : Signal → LogRecord
  | started change actor preview =>
    .happened "submit.started" [
      ("change", .nat change.toNat), ("actor", .nat actor.toNat), ("preview", .bool preview)]
  | closure size branches wholeTopic =>
    .happened "submit.closure" [
      ("size", .nat size), ("branches", .nat branches), ("whole_topic", .bool wholeTopic)]
  | branchResolved branch how tip =>
    .happened "submit.branch_resolved" [
      ("branch", .string branch.text), ("resolution", .string how.text),
      ("new_tip", .string (CommitId.shortTip tip))]
  | rejected failure =>
    .happened "submit.rejected" [
      ("kind", .string failure.kind), ("error", .string failure.message)]
  | applied branches changes _ _ =>
    .happened "submit.applied" [("branches", .nat branches), ("changes", .nat changes)]
  | rolledBack undone cause =>
    ⟨.warn, [
      ("event", .string "submit.rolled_back"), ("undone", .nat undone),
      ("cause", .string cause.message)]⟩
  | compensationFailed step error =>
    ⟨.warn, [
      ("message", .string "compensation failed"), ("step", .string step),
      ("error", .string error.message)]⟩
  | published event => event.logRecord

/-- The event a signal publishes. -/
def event? : Signal → Option Event
  | published event => some event
  | _ => none

end Signal

/-- Counts over all submissions. -/
structure Metrics where
  attempted : Nat
  succeeded : Nat
  rejected : Nat
  fastForwards : Nat
  mergeCommits : Nat
  rollbacks : Nat
  deriving DecidableEq

namespace Metrics

/-- Nothing counted yet. -/
def zero : Metrics := ⟨0, 0, 0, 0, 0, 0⟩

/-- Count a signal. Previews are not counted. -/
def record (m : Metrics) : Signal → Metrics
  | .started _ _ false => { m with attempted := m.attempted + 1 }
  | .rejected _ => { m with rejected := m.rejected + 1 }
  | .applied _ _ fastForwards merges =>
    { m with
      succeeded := m.succeeded + 1
      fastForwards := m.fastForwards + fastForwards
      mergeCommits := m.mergeCommits + merges }
  | .rolledBack _ _ => { m with rollbacks := m.rollbacks + 1 }
  | _ => m

def toJson (m : Metrics) : Json :=
  .object [
    ("attempted", .nat m.attempted),
    ("succeeded", .nat m.succeeded),
    ("rejected", .nat m.rejected),
    ("fast_forwards", .nat m.fastForwards),
    ("merge_commits", .nat m.mergeCommits),
    ("rollbacks", .nat m.rollbacks)]

/-- The log line with all counts. -/
def logRecord (m : Metrics) : LogRecord where
  level := .info
  fields := [
    ("metric", .string "flush"),
    ("submits_attempted", .nat m.attempted),
    ("submits_succeeded", .nat m.succeeded),
    ("submits_rejected", .nat m.rejected),
    ("fast_forwards", .nat m.fastForwards),
    ("merge_commits", .nat m.mergeCommits),
    ("rollbacks", .nat m.rollbacks)]

end Metrics

end Landing
