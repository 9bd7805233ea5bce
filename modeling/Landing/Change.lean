import Landing.Branch
import Landing.Commit

/-!
# Changes under review

A change is a reviewable unit for one branch.  Its revisions are patch sets,
each at one commit; the current one has the highest number.  A change is open
until it is merged or abandoned, and a merged change records who submitted it
and the tip of its branch that it went in with.
-/

namespace Landing

/-- The number of a change, given in the order of upload. -/
abbrev ChangeId := UInt32

/-- The number of an account. -/
abbrev AccountId := UInt32

/-- Somebody who owns, uploads or submits changes. -/
structure Account where
  id : AccountId
  ident : Signature
  deriving DecidableEq

/-- Where a change is in its life. -/
inductive Status where
  | new
  | merged
  | abandoned
  deriving DecidableEq

/-- One revision of a change. -/
structure PatchSet where
  number : UInt32
  commit : CommitId
  uploader : AccountId
  deriving DecidableEq

/-- A change with its revisions. -/
structure Change where
  id : ChangeId
  dest : Branch
  owner : AccountId
  status : Status
  topic : Option String
  patchSets : List PatchSet
  /-- Only the owner sees the change. -/
  ownerOnly : Bool
  submitter : Option AccountId
  mergedAs : Option CommitId
  deriving DecidableEq

namespace Account

def toJson (a : Account) : Json := .object [("id", .nat a.id.toNat), ("ident", a.ident.toJson)]

def ofJson? (j : Json) : Option Account := do
  let r ← Json.Fields.ofJson? ["id", "ident"] j
  let id ← r.required "id" Json.word?
  let ident ← r.required "ident" Signature.ofJson?
  some ⟨id, ident⟩

end Account

namespace Status

def text : Status → String
  | .new => "new"
  | .merged => "merged"
  | .abandoned => "abandoned"

def ofText? : String → Option Status
  | "new" => some .new
  | "merged" => some .merged
  | "abandoned" => some .abandoned
  | _ => none

def ofJson? (j : Json) : Option Status := j.name?.bind ofText?

end Status

namespace PatchSet

def toJson (p : PatchSet) : Json :=
  .object [("number", .nat p.number.toNat), ("commit", p.commit.toJson),
    ("uploader", .nat p.uploader.toNat)]

def ofJson? (j : Json) : Option PatchSet := do
  let r ← Json.Fields.ofJson? ["number", "commit", "uploader"] j
  let number ← r.required "number" Json.word?
  let commit ← r.required "commit" CommitId.ofJson?
  let uploader ← r.required "uploader" Json.word?
  some ⟨number, commit, uploader⟩

/-- The later of two patch sets; of equal numbers the one listed second. -/
def later (p q : PatchSet) : PatchSet := if p.number ≤ q.number then q else p

/-- The patch set with the highest number; of equal numbers the last one listed. -/
def latest? : List PatchSet → Option PatchSet
  | [] => none
  | p :: rest => some (rest.foldl later p)

end PatchSet

namespace Change

/-- A new open change with one patch set. -/
def create (id : ChangeId) (dest : Branch) (owner : AccountId) (commit : CommitId) : Change where
  id
  dest
  owner
  status := .new
  topic := none
  patchSets := [⟨1, commit, owner⟩]
  ownerOnly := false
  submitter := none
  mergedAs := none

/-- Set the topic; the empty text means no topic. -/
def withTopic (c : Change) (topic : String) : Change :=
  { c with topic := if topic.isEmpty then none else some topic }

/-- The patch set with the highest number. -/
def currentPatchSet? (c : Change) : Option PatchSet := PatchSet.latest? c.patchSets

/-- The commit of the current patch set. -/
def currentCommit? (c : Change) : Option CommitId := c.currentPatchSet?.map (·.commit)

/-- The first patch set at a commit, current or outdated. -/
def patchSetAt? (c : Change) (commit : CommitId) : Option PatchSet :=
  c.patchSets.find? (·.commit == commit)

/-- The number for the next patch set. -/
def nextNumber (c : Change) : UInt32 :=
  match c.currentPatchSet? with
  | some p => p.number + 1
  | none => 1

/-- Add a patch set with the next number. -/
def addPatchSet (c : Change) (commit : CommitId) (uploader : AccountId) : Change :=
  { c with patchSets := c.patchSets ++ [⟨c.nextNumber, commit, uploader⟩] }

/-- The change is neither merged nor abandoned. -/
def isOpen (c : Change) : Bool := c.status == .new

/-- The change after it went in with `tip`, submitted by `submitter`. -/
def markMerged (c : Change) (tip : CommitId) (submitter : AccountId) : Change :=
  { c with status := .merged, mergedAs := some tip, submitter := some submitter }

/-- The change open again, with no trace of a submission. -/
def reopen (c : Change) : Change :=
  { c with status := .new, mergedAs := none, submitter := none }

/-- Reopening a change does nothing exactly if it is open and without traces of a submission. -/
theorem reopen_eq_iff {c : Change} :
    c.reopen = c ↔ c.isOpen = true ∧ c.submitter = none ∧ c.mergedAs = none := by
  obtain ⟨id, dest, owner, status, topic, patchSets, ownerOnly, submitter, mergedAs⟩ := c
  simp only [reopen, isOpen, Change.mk.injEq, beq_iff_eq, true_and]
  constructor
  · rintro ⟨rfl, rfl, rfl⟩
    exact ⟨rfl, rfl, rfl⟩
  · rintro ⟨rfl, rfl, rfl⟩
    exact ⟨rfl, rfl, rfl⟩

/-- The names of a change's fields. -/
def fieldNames : List String :=
  ["id", "dest", "owner", "status", "topic", "patch_sets", "private", "submitter", "merged_as"]

def toJson (c : Change) : Json :=
  .object [
    ("id", .nat c.id.toNat),
    ("dest", c.dest.toJson),
    ("owner", .nat c.owner.toNat),
    ("status", .string c.status.text),
    ("topic", .ofOption .string c.topic),
    ("patch_sets", .array (c.patchSets.map PatchSet.toJson)),
    ("private", .bool c.ownerOnly),
    ("submitter", .ofOption (fun a => .nat a.toNat) c.submitter),
    ("merged_as", .ofOption CommitId.toJson c.mergedAs)]

def ofJson? (j : Json) : Option Change := do
  let r ← Json.Fields.ofJson? fieldNames j
  let id ← r.required "id" Json.word?
  let dest ← r.required "dest" Branch.ofJson?
  let owner ← r.required "owner" Json.word?
  let status ← r.required "status" Status.ofJson?
  let topic ← r.optional "topic" none (Json.optionOf? Json.string?)
  let patchSets ← r.required "patch_sets" (Json.listOf? PatchSet.ofJson?)
  let ownerOnly ← r.optional "private" false Json.bool?
  let submitter ← r.optional "submitter" none (Json.optionOf? Json.word?)
  let mergedAs ← r.optional "merged_as" none (Json.optionOf? CommitId.ofJson?)
  some { id, dest, owner, status, topic, patchSets, ownerOnly, submitter, mergedAs }

end Change

end Landing
