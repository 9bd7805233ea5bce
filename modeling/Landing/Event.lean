import Landing.Change

/-!
# Events

What observers are told once a submission has been applied.
-/

namespace Landing

/-- Something that happened to a branch or a change. -/
inductive Event where
  /-- The branch moved; `old` is missing when the branch was created. -/
  | refUpdated (branch : Branch) (old : Option CommitId) (new : CommitId)
  /-- The change went in; `mergedAs` is the tip of its branch afterwards. -/
  | changeMerged (change : ChangeId) (branch : Branch) (mergedAs : CommitId) (submitter : AccountId)
  deriving DecidableEq

namespace Event

/-- The name of the kind of event. -/
def name : Event → String
  | refUpdated .. => "ref-updated"
  | changeMerged .. => "change-merged"

/-- Whether a branch moved. -/
def isRefUpdated : Event → Bool
  | refUpdated .. => true
  | changeMerged .. => false

/-- An event as a tagged record. -/
def toJson : Event → Json
  | refUpdated branch old new =>
    .object [("type", .string "ref_updated"), ("branch", branch.toJson),
      ("old", .ofOption CommitId.toJson old), ("new", new.toJson)]
  | changeMerged change branch mergedAs submitter =>
    .object [("type", .string "change_merged"), ("change", .nat change.toNat),
      ("branch", branch.toJson), ("merged_as", mergedAs.toJson),
      ("submitter", .nat submitter.toNat)]

end Event

end Landing
