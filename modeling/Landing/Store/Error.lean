import Landing.Change

/-!
# What a store may answer instead of a result
-/

namespace Landing

/-- Why a store did not do what it was asked. -/
inductive StoreError where
  /-- The project holds no such commit. -/
  | commitNotFound (project : ProjectName) (id : CommitId)
  | projectNotFound (project : ProjectName)
  | changeNotFound (id : ChangeId)
  /-- A text that names no commit. -/
  | invalidCommitId (text : String)
  /-- The branch was not where the caller expected it. -/
  | refConflict (branch : Branch) (expected actual : Option CommitId)
  /-- A saved world could not be read or written. -/
  | serialization (detail : String)
  /-- A file could not be read or written. -/
  | io (detail : String)
  /-- Any other failure of the store. -/
  | backend (detail : String)
  deriving DecidableEq

namespace StoreError

/-- The name of the kind of error. -/
def kind : StoreError → String
  | commitNotFound .. => "CommitNotFound"
  | projectNotFound .. => "ProjectNotFound"
  | changeNotFound .. => "ChangeNotFound"
  | invalidCommitId .. => "InvalidCommitId"
  | refConflict .. => "RefConflict"
  | serialization .. => "Serialization"
  | io .. => "Io"
  | backend .. => "Backend"

/-- The error in words. -/
def message : StoreError → String
  | commitNotFound project id => "commit " ++ id.text ++ " not found in " ++ project
  | projectNotFound project => "project not found: " ++ project
  | changeNotFound id => "change not found: " ++ toString id.toNat
  | invalidCommitId text => "invalid commit id: " ++ text
  | refConflict branch expected actual =>
    "ref " ++ branch.text ++ " moved: expected " ++ CommitId.shortTip expected ++ ", found " ++
      CommitId.shortTip actual
  | serialization detail => "serialization failed: " ++ detail
  | io detail => "io error: " ++ detail
  | backend detail => "backend error: " ++ detail

/-- The errors behind this one, outermost first, in words. -/
def causes : StoreError → List String
  | io detail => [detail]
  | _ => []

end StoreError

end Landing
