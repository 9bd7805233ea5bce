import Landing.History

/-!
# Parents before children

A set of commits is listed so that every commit follows its parents that are in
the set.  The listing is a depth-first descent on an explicit stack.  A frame of
the stack asks to visit a commit, or to place one whose parents have been dealt
with.  Frames that need no reading are handled at once (`settle`); reading the
parents of a commit spends one unit of the budget.  Where the members lead to one
another in a circle the descent does not end, whatever the budget.
-/

namespace Landing.History

/-- A task on the stack. -/
inductive Frame where
  /-- Deal with a commit and, before it, its parents. -/
  | visit (c : CommitId)
  /-- List a commit whose parents have been dealt with. -/
  | place (c : CommitId)
  deriving DecidableEq

/-- List a commit unless it is listed already. -/
def list (listed : List CommitId) (c : CommitId) : List CommitId :=
  if listed.contains c then listed else listed ++ [c]

/-- Handle the frames on top of the stack that need no reading. -/
def settle : (stack : List Frame) → (listed : List CommitId) → List Frame × List CommitId
  | [], listed => ([], listed)
  | .place c :: rest, listed => settle rest (list listed c)
  | .visit c :: rest, listed =>
    if listed.contains c then settle rest listed else (.visit c :: rest, listed)

/-- The frames that a visit to `c` with these parents puts on the stack, top first. -/
def descend (members listed : List CommitId) (c : CommitId) (ps : List CommitId) : List Frame :=
  (ps.filter fun p => members.contains p && !listed.contains p).reverse.map .visit ++ [.place c]

/-- Work the stack off. -/
def arrange (project : ProjectName) (members : List CommitId) :
    (budget : Nat) → (stack : List Frame) → (listed : List CommitId) → Reading (List CommitId)
  | budget, stack, listed =>
    match settle stack listed with
    | (.visit c :: rest, listed) =>
      match budget with
      | 0 => Reading.exhausted
      | budget + 1 => do
        let ps ← parents project c
        arrange project members budget (descend members listed c ps ++ rest) listed
    | (_, listed) => pure listed

/-- The given commits, each once and every one after its parents among them. -/
def parentsFirst (project : ProjectName) (commits : List CommitId) : Reading (List CommitId) := do
  arrange project commits (← get).budget (commits.map .visit) []

end Landing.History
