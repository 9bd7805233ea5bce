import Landing.Store.Error
import Landing.Submission.Problem

/-!
# Why a submission or a preview fails
-/

namespace Landing

/-- The ways in which a submission or a preview may end without a result. -/
inductive Failure where
  /-- The requested change does not exist. -/
  | notFound (change : ChangeId)
  /-- The submitter does not see the requested change or one that must go in with it. -/
  | notVisible (change : ChangeId)
  | notOpen (change : ChangeId) (status : Status)
  /-- Some changes depend on commits that do not go in. -/
  | dependency (report : Report)
  /-- Some branches cannot take their changes. -/
  | conflict (report : Report)
  /-- A branch moved after the plan was made. -/
  | concurrentModification (branch : Branch) (expected actual : Option CommitId)
  /-- An applied step could not be undone. -/
  | rollbackFailed (step : String) (cause : StoreError)
  | unsupportedFormat (name : String)
  | archive (detail : String)
  | storage (cause : StoreError)
  deriving DecidableEq

namespace Failure

/-- A short name for the kind of failure. -/
def kind : Failure → String
  | notFound .. => "not_found"
  | notVisible .. => "not_visible"
  | notOpen .. => "not_open"
  | dependency .. => "dependency"
  | conflict .. => "conflict"
  | concurrentModification .. => "concurrent_modification"
  | rollbackFailed .. => "rollback_failed"
  | unsupportedFormat .. => "unsupported_format"
  | archive .. => "archive"
  | storage .. => "storage"

/-- The failure in words. -/
def message : Failure → String
  | notFound change => "Not found: " ++ toString change.toNat
  | notVisible change =>
    "A change to be submitted with " ++ toString change.toNat ++ " is not visible"
  | notOpen change status => "change " ++ toString change.toNat ++ " is " ++ status.text
  | dependency report => report.message
  | conflict report => report.message
  | concurrentModification branch _ _ =>
    "branch " ++ branch.text ++ " was updated concurrently; submit again"
  | rollbackFailed step cause => "rollback failed at " ++ step ++ ": " ++ cause.message
  | unsupportedFormat name => "unsupported preview format: " ++ name
  | archive detail => "archive error: " ++ detail
  | storage cause => "storage error: " ++ cause.message

/-- Whether the same request may succeed when it is made again. -/
def isRetryable : Failure → Bool
  | concurrentModification .. => true
  | _ => false

/-- The errors behind the failure, outermost first, in words. -/
def causes : Failure → List String
  | rollbackFailed _ cause => cause.message :: cause.causes
  | storage cause => cause.message :: cause.causes
  | _ => []

end Failure

end Landing
