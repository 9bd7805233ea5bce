import Landing.Policy
import Landing.Submission.Batch
import Landing.Submission.BranchState
import Landing.Tree.Merge

/-!
# Where a branch is to go

The heads of a branch's changes are taken one after another, starting from the
tip that was seen.  A head that the tip leads to already changes nothing.  If the
head leads to the tip, the branch may move to it by fast-forward; otherwise, or
when the strategy always merges, a merge commit is drafted with the tip and the
head as parents.  A branch that does not exist yet begins at its first head.

A step that the strategy forbids, or a merge with conflicting paths, aborts the
branch; this is an outcome of the plan and not a failure of planning.
-/

namespace Landing

/-- How one branch takes its changes. -/
structure BranchPlan where
  branch : Branch
  strategy : Strategy
  /-- The tip seen while planning, which the branch must still have when it moves. -/
  oldTip : Option CommitId
  /-- The tip afterwards. -/
  newTip : Option CommitId
  /-- The changes that go in, in order. -/
  changes : List ChangeId
  /-- The drafted merge commits, oldest first. -/
  merges : List CommitId
  fastForwards : Nat
  state : BranchState
  /-- What the merge commits consist of, in the same order; it enters no record. -/
  drafts : List Draft := []
  deriving DecidableEq

/-- The message of a merge commit: it quotes the subject of a single change, and lists the numbers
and subjects of several. -/
def mergeMessage : List (ChangeId × String) → String
  | [(_, subject)] => "Merge \"" ++ subject ++ "\""
  | changes =>
    "Merge changes " ++ Text.join "," (changes.map fun c => toString c.1.toNat) ++
      "\n\n* changes:" ++ String.join (changes.map fun c => "\n  " ++ c.2)

namespace BranchPlan

/-- The plan before any head was taken. -/
def start (segment : Segment) (strategy : Strategy) (oldTip : Option CommitId) : BranchPlan where
  branch := segment.branch
  strategy
  oldTip
  newTip := oldTip
  changes := segment.changes.map (·.id)
  merges := []
  fastForwards := 0
  state := .idle

/-- Whether the branch moves. -/
def movesRef (p : BranchPlan) : Bool := p.newTip.isSome && p.newTip != p.oldTip

/-- The plan given up because of a change. -/
def abort (p : BranchPlan) (change : ChangeId) (obstacle : Obstacle) : BranchPlan :=
  { p with state := .aborted ⟨change, obstacle⟩ }

/-- Move to an existing commit. -/
def fastForward (p : BranchPlan) (commit : CommitId) : BranchPlan :=
  { p with newTip := some commit, fastForwards := p.fastForwards + 1 }

/-- Move to a drafted merge commit. -/
def mergeTo (p : BranchPlan) (merge : Draft) : BranchPlan :=
  { p with
    newTip := some merge.id
    merges := p.merges ++ [merge.id]
    drafts := p.drafts ++ [merge] }

/-- The plan once every head was taken. -/
def resolve (p : BranchPlan) : BranchPlan :=
  { p with state := .resolved <|
      if !p.merges.isEmpty then .merge else if p.movesRef then .fastForward else .alreadyMerged }

/-- The changes of a branch that a step brings in: those that no earlier step brought in, that
`commit` leads to and `running` does not. -/
def coveredBy (project : ProjectName) (commit running : CommitId) (integrated : List ChangeId)
    (changes : List Change) : Reading (List (ChangeId × CommitId)) := do
  let candidates := changes.filterMap fun c => c.currentCommit?.map fun own => (c.id, own)
  candidates.filterM fun c => do
    if integrated.contains c.1 then pure false
    else if ← History.isAncestor project c.2 commit then
      pure (!(← History.isAncestor project c.2 running))
    else pure false

/-- The files of a commit. -/
def treeAt (project : ProjectName) (id : CommitId) : Reading Tree := do
  pure (← History.commit project id).tree

/-- The files at the merge base of two commits; without a common ancestor there are none. -/
def baseTree (project : ProjectName) (running commit : CommitId) : Reading Tree := do
  match ← History.mergeBase? project running commit with
  | some base => treeAt project base
  | none => pure .empty

/-- Draft the merge of `commit` into `running`, or give the conflicting paths. -/
def draftMerge (policy : Policy) (actor : Account) (project : ProjectName)
    (running commit : CommitId) (covered : List (ChangeId × CommitId)) :
    Reading (Except (List String) Draft) := do
  let base ← baseTree project running commit
  let ours ← treeAt project running
  let theirs ← treeAt project commit
  match base.merge ours theirs with
  | .error paths => pure (.error paths)
  | .ok tree =>
    let subjects ← covered.mapM fun c => do
      pure (c.1, (← History.commit project c.2).subject)
    let merge : Draft := {
      parents := [running, commit]
      tree
      author := actor.ident
      committer := policy.serverIdent
      message := mergeMessage subjects }
    let _ ← History.addDraft project merge
    pure (.ok merge)

/-- Take one head; the plan comes with the changes brought in so far. -/
def takeHead (policy : Policy) (actor : Account) (segment : Segment)
    (p : BranchPlan) (integrated : List ChangeId) (head : ChangeId) (commit : CommitId) :
    Reading (BranchPlan × List ChangeId) := do
  let project := segment.branch.project
  match p.newTip with
  | none => pure (p.fastForward commit, integrated)
  | some running =>
    if ← History.isAncestor project commit running then pure (p, integrated)
    else
      let possible ← History.isAncestor project running commit
      if p.strategy == .fastForwardOnly && !possible then
        pure (p.abort head .fastForwardRequired, integrated)
      else
        let covered ← coveredBy project commit running integrated segment.changes
        let integrated := integrated ++ covered.map (·.1)
        if p.strategy != .mergeAlways && possible then
          pure (p.fastForward commit, integrated)
        else
          match ← draftMerge policy actor project running commit covered with
          | .ok merge => pure (p.mergeTo merge, integrated)
          | .error paths => pure (p.abort head (.pathConflict paths), integrated)

/-- Take the heads in order; an aborted plan takes no further head. -/
def takeHeads (policy : Policy) (actor : Account) (segment : Segment) :
    (p : BranchPlan) → (integrated : List ChangeId) → (heads : List Change) → Reading BranchPlan
  | p, _, [] => pure p.resolve
  | p, integrated, head :: heads => do
    match head.currentCommit? with
    | none => takeHeads policy actor segment p integrated heads
    | some commit =>
      let (p, integrated) ← takeHead policy actor segment p integrated head.id commit
      if p.state.isTerminal then pure p
      else takeHeads policy actor segment p integrated heads

/-- Resolve one branch to its tip. -/
def compute (policy : Policy) (actor : Account) (segment : Segment) : Reading BranchPlan := do
  let oldTip ← History.tip? segment.branch
  let strategy := policy.strategyFor segment.branch.project
  takeHeads policy actor segment (start segment strategy oldTip) [] segment.headChanges

end BranchPlan

end Landing
