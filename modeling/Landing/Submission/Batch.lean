import Landing.History.Walk

/-!
# Batches

The changes of one submission are grouped by branch.  Within a branch they are
ordered so that a change follows those whose commit leads to its own, and among
changes that may come next the one with the lowest number does.  The heads of a
branch are the changes that no other change of the branch is built on.
-/

namespace Landing

/-- The changes for one branch, in the order in which they go in. -/
structure Segment where
  branch : Branch
  changes : List Change
  /-- The changes that no other one is built on, in the same order. -/
  heads : List ChangeId
  deriving DecidableEq

/-- All changes of a submission, by branch. -/
structure Batch where
  segments : List Segment
  deriving DecidableEq

/-- How far the listing of the changes for a branch has come. -/
structure Countdown where
  /-- For each change, how many of the changes below it are not listed yet. -/
  pending : Table ChangeId Nat
  /-- The changes that may come next. -/
  ready : Table ChangeId Unit
  /-- The changes listed so far. -/
  listed : List ChangeId
  deriving DecidableEq

namespace Countdown

/-- For each change, the number of pairs in which it is the upper one. -/
def count (below : List (ChangeId × ChangeId)) (ids : List ChangeId) : Table ChangeId Nat :=
  below.foldl (fun t e => t.insert e.2 ((t.get? e.2).getD 0 + 1))
    (Table.ofList (ids.map fun id => (id, 0)))

/-- Nothing is listed; the changes that no other one is below may come next. -/
def start (below : List (ChangeId × ChangeId)) (ids : List ChangeId) : Countdown :=
  let pending := count below ids
  ⟨pending, (pending.filter fun _ n => n == 0).map fun _ => (), []⟩

/-- A change below `id` was listed.  There is no result if none was expected. -/
def release (s : Countdown) (id : ChangeId) : Option Countdown :=
  match s.pending.get? id with
  | none => some s
  | some 0 => none
  | some (n + 1) =>
    some { s with
      pending := s.pending.insert id n
      ready := if n = 0 then s.ready.insert id () else s.ready }

/-- The changes that a change is below. -/
def above (below : List (ChangeId × ChangeId)) (id : ChangeId) : List ChangeId :=
  (below.filter (·.1 == id)).map (·.2)

/-- List a change that may come next, and release the changes that it is below. -/
def place (below : List (ChangeId × ChangeId)) (s : Countdown) (next : ChangeId) :
    Option Countdown :=
  (above below next).foldlM release
    { s with ready := s.ready.erase next, listed := s.listed ++ [next] }

/-- Go on as long as a change may come next, each time with the one of the lowest number. -/
def run (below : List (ChangeId × ChangeId)) : (bound : Nat) → Countdown → Option Countdown
  | bound, s =>
    match s.ready.keys with
    | [] => some s
    | next :: _ =>
      match bound with
      | 0 => none
      | bound + 1 => (place below s next).bind (run below bound)

/-- All changes in the order in which they go in.  Changes that are above each other in a circle come
last, in the order of their numbers. -/
def list? (below : List (ChangeId × ChangeId)) (ids : List ChangeId) : Option (List ChangeId) :=
  (run below ids.length (start below ids)).map fun s =>
    s.listed ++ ids.filter fun id => !s.listed.contains id

end Countdown

namespace Segment

/-- The head changes, in order. -/
def headChanges (s : Segment) : List Change := s.changes.filter fun c => s.heads.contains c.id

/-- A change is *below* another when its current commit differs from the other's and the other's
leads to it.  These are all such pairs with `lower` below. -/
def pairsAbove (project : ProjectName) (lower : ChangeId × CommitId)
    (all : List (ChangeId × CommitId)) : Reading (List (ChangeId × ChangeId)) := do
  let above ← all.filterM fun upper =>
    if lower.1 = upper.1 ∨ lower.2 = upper.2 then pure false
    else History.isAncestor project lower.2 upper.2
  pure (above.map fun upper => (lower.1, upper.1))

/-- All pairs of changes of which the first is below the second. -/
def pairs (project : ProjectName) (all : List (ChangeId × CommitId)) :
    Reading (List (ChangeId × ChangeId)) := do
  pure (← all.mapM fun lower => pairsAbove project lower all).flatten

/-- The changes that have a commit, with it. -/
def placed (members : List Change) : List (ChangeId × CommitId) :=
  members.filterMap fun c => c.currentCommit?.map fun commit => (c.id, commit)

/-- The changes by number. -/
def byId (members : List Change) : Table ChangeId Change :=
  Table.ofList (members.map fun c => (c.id, c))

/-- Order the changes of one branch.  They are listed by counting down how many changes are to come
before each of them. -/
def order (branch : Branch) (members : List Change) : Reading Segment := do
  let below ← pairs branch.project (placed members)
  match Countdown.list? below (byId members).keys with
  | some ids =>
    pure {
      branch
      changes := ids.filterMap (byId members).get?
      heads := ids.filter fun id => !below.any (·.1 == id) }
  | none => Reading.exhausted

end Segment

namespace Batch

/-- The batch without changes. -/
def empty : Batch := ⟨[]⟩

/-- Every change, by branch and then in the order of the branch. -/
def changes (b : Batch) : List Change := b.segments.flatMap (·.changes)

/-- The number of changes. -/
def size (b : Batch) : Nat := b.changes.length

/-- Whether a change of this number is in the batch. -/
def contains (b : Batch) (id : ChangeId) : Bool := b.changes.any (·.id == id)

/-- The current commits of all changes. -/
def commits (b : Batch) : List CommitId := b.changes.filterMap Change.currentCommit?

/-- The changes by branch, each branch's in the given order. -/
def byBranch (changes : List Change) : Table Branch (List Change) :=
  changes.foldl (fun t c => t.insert c.dest ((t.get? c.dest).getD [] ++ [c])) .empty

/-- Group changes by branch and order each branch. -/
def order (changes : List Change) : Reading Batch := do
  pure ⟨← (byBranch changes).entries.mapM fun e => Segment.order e.1 e.2⟩

end Batch

end Landing
