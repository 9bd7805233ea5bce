import Landing.Program

/-!
# Histories under study

While a submission is planned, a history stands between the plan and the stores.
It remembers every commit it has read, keeps the tips of a project's branches as
it first saw them, and holds the commits that the plan would add, which no store
has yet.

The tips that a history remembers are where the plan later expects the branches
to be, so a history serves one submission only.

A question to a history may fail with the store's error; what was read until then
stays remembered.
-/

namespace Landing

/-- What a history knows about one project. -/
structure ProjectView where
  /-- The commits read from the store or drafted, by name. -/
  commits : Table CommitId Commit
  /-- The tips of the branches as first seen. -/
  tips : Option (List (Branch × CommitId))
  /-- Every commit that some tip leads to. -/
  accepted : Option (List CommitId)
  /-- The drafted commits, oldest first. -/
  created : List Draft
  deriving DecidableEq

/-- What is known about the projects a submission touches. -/
structure History where
  /-- The number of different commits one walk may visit. -/
  budget : Nat
  views : Table ProjectName ProjectView
  deriving DecidableEq

/-- A computation that reads histories and may call the stores. -/
abbrev Reading (α : Type) := ExceptT StoreError (StateT History Program) α

namespace Reading

/-- Stop because the budget is used up. -/
def exhausted : Reading α := ExceptT.mk fun _ => .exhausted

/-- Make a store call. -/
def ask (c : StoreCall) : Reading c.Reply :=
  ExceptT.mk fun h => .call c fun r => .done (r, h)

end Reading

namespace ProjectView

/-- Nothing is known. -/
def unknown : ProjectView := ⟨.empty, none, none, []⟩

end ProjectView

namespace History

/-- Nothing is known about any project. -/
def start (budget : Nat) : History := ⟨budget, .empty⟩

/-- What is known about a project. -/
def view (h : History) (project : ProjectName) : ProjectView :=
  (h.views.get? project).getD .unknown

/-- Replace what is known about a project. -/
def setView (h : History) (project : ProjectName) (v : ProjectView) : History :=
  { h with views := h.views.insert project v }

/-- Remember a commit under the name it was asked for. -/
def remember (h : History) (project : ProjectName) (id : CommitId) (c : Commit) : History :=
  let v := h.view project
  h.setView project { v with commits := v.commits.insert id c }

/-- Draft a commit; one that is known already is not drafted again. -/
def draft (h : History) (project : ProjectName) (d : Draft) : History :=
  let v := h.view project
  if v.commits.contains d.id then h
  else
    h.setView project
      { v with commits := v.commits.insert d.id d.commit, created := v.created ++ [d] }

/-- The drafted commits of every project that has some, oldest first. -/
def created (h : History) : Table ProjectName (List Draft) :=
  (h.views.map (·.created)).filter fun _ drafts => !drafts.isEmpty

/-! ### Commits and tips -/

/-- The commit of that name, drafted, remembered or read. -/
def commit (project : ProjectName) (id : CommitId) : Reading Commit := do
  match ((← get).view project).commits.get? id with
  | some c => pure c
  | none =>
    let c ← Reading.ask (.commit project id)
    modify (·.remember project id c)
    pure c

/-- The parents of a commit. -/
def parents (project : ProjectName) (id : CommitId) : Reading (List CommitId) := do
  pure (← commit project id).parents

/-- The branches of a project with their tips as first seen. -/
def tips (project : ProjectName) : Reading (List (Branch × CommitId)) := do
  match ((← get).view project).tips with
  | some tips => pure tips
  | none =>
    let tips ← Reading.ask (.branches project)
    modify fun h => h.setView project { h.view project with tips := some tips }
    pure tips

/-- The tip of a branch as first seen; there is none if the branch does not exist. -/
def tip? (branch : Branch) : Reading (Option CommitId) := do
  pure (((← tips branch.project).find? (·.1 == branch)).map (·.2))

/-- Add a commit to the drafted ones and give its name. -/
def addDraft (project : ProjectName) (d : Draft) : Reading CommitId := do
  modify (·.draft project d)
  pure d.id

end History

end Landing
