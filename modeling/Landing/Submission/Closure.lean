import Landing.Submission.Planning

/-!
# What must go in together

The closure of a change grows from the change by two rules.  An open change for
the same branch joins when one of its patch sets, current or not, is at a commit
that a member's current commit leads to and that no branch has yet.  When whole
topics are taken, every open change with a member's topic joins, in any project.

The closure is listed by change number, and it must be visible to the submitter
as a whole.
-/

namespace Landing

/-- The members of a closure found so far, and the topics that were looked up. -/
structure Closure where
  members : Table ChangeId Change
  topics : List String
  deriving DecidableEq

namespace Closure

/-- The closure that holds one change. -/
def start (requested : Change) : Closure := ⟨Table.empty.insert requested.id requested, []⟩

/-- Add a change, and give it back unless it was a member before. -/
def add (s : Closure × List Change) (candidate : Change) : Closure × List Change :=
  if s.1.members.contains candidate.id then s
  else ({ s.1 with members := s.1.members.insert candidate.id candidate }, s.2 ++ [candidate])

/-- The open changes for the branch of `change` at the commits that its current commit leads to
and that no branch has. -/
def belowMember (change : Change) : Reading (List Change) := do
  match change.currentCommit? with
  | none => pure []
  | some commit =>
    let project := change.dest.project
    let ancestry ← History.unacceptedAncestry project [commit]
    let owners ← ancestry.mapM fun c => Reading.ask (.byCommit project c)
    pure (owners.flatten.filter fun o => o.isOpen && o.dest == change.dest)

/-- The open changes with the topic of `change`, unless that topic was looked up before. -/
def onTopic (wholeTopic : Bool) (change : Change) (topics : List String) :
    Reading (List Change × List String) := do
  match wholeTopic, change.topic with
  | true, some topic =>
    if topics.contains topic then pure ([], topics)
    else pure (← Reading.ask (.openByTopic topic), topics ++ [topic])
  | _, _ => pure ([], topics)

/-- Grow the closure from the changes of a queue until nothing new is found. -/
def grow (wholeTopic : Bool) :
    (budget : Nat) → Closure → (queue : List Change) → Reading Closure
  | _, closure, [] => pure closure
  | 0, _, _ :: _ => Reading.exhausted
  | budget + 1, closure, change :: queue => do
    let below ← belowMember change
    let (mates, topics) ← onTopic wholeTopic change closure.topics
    let (closure, found) := (below ++ mates).foldl add ({ closure with topics }, [])
    grow wholeTopic budget closure (queue ++ found)

/-- Whether every member is visible to an account; every member is asked for, in order. -/
def visible (actor : AccountId) (members : List Change) : Planning Bool := do
  let verdicts ← members.mapM fun m => Planning.ask (.isVisible actor m)
  pure (verdicts.all id)

/-- The changes that go in with `requested`, by number; a member that the submitter does not see
is not named. -/
def compute (wholeTopic : Bool) (actor : AccountId) (requested : Change) :
    Planning (List Change) := do
  let closure ← Planning.read (do
    grow wholeTopic (← get).budget (start requested) [requested])
  let members := closure.members.values
  if ← visible actor members then pure members
  else throw (.notVisible requested.id)

end Closure

end Landing
