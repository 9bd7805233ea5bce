import Landing.History

/-!
# Walks over histories

All questions about what leads to what are answered by one breadth-first walk
along parent links (`History.walk`).  At every commit that it meets for the first
time the walk asks whether to stop there, to pass by, or to enter and go on to the
parents.  It visits each commit once, nearest first, and spends one unit of the
budget per visited commit.

A commit is *accepted* when some branch of its project leads to it.  Everything
behind an accepted commit is accepted, which is why walks in search of a commit
that is not accepted pass accepted ones by.
-/

namespace Landing.History

/-- What to do at a commit that is met for the first time. -/
inductive Visit where
  /-- This is the commit in search; end the walk. -/
  | stop
  /-- Do not look behind this commit. -/
  | pass
  /-- Go on to the parents of this commit. -/
  | enter
  deriving DecidableEq

/-- Where a walk has been. -/
structure Trail where
  /-- The commits met so far. -/
  seen : List CommitId
  /-- The commits entered so far, in order. -/
  entered : List CommitId
  /-- The commit at which the walk stopped. -/
  found : Option CommitId
  deriving DecidableEq

namespace Trail

/-- The trail of a walk that has not begun. -/
def start : Trail := ⟨[], [], none⟩

/-- The commits of a queue from the first one that was not met yet. -/
def pending (t : Trail) (queue : List CommitId) : List CommitId :=
  queue.dropWhile fun c => t.seen.contains c

/-- Meet a commit. -/
def meet (t : Trail) (c : CommitId) : Trail := { t with seen := t.seen ++ [c] }

/-- Enter a commit. -/
def enter (t : Trail) (c : CommitId) : Trail := { t with entered := t.entered ++ [c] }

end Trail

/-- Walk breadth-first from the commits of a queue. -/
def walk (project : ProjectName) (visit : CommitId → Reading Visit) :
    (budget : Nat) → Trail → (queue : List CommitId) → Reading Trail
  | budget, trail, queue =>
    match trail.pending queue with
    | [] => pure trail
    | next :: rest =>
      match budget with
      | 0 => Reading.exhausted
      | budget + 1 => do
        let trail := trail.meet next
        match ← visit next with
        | .stop => pure { trail with found := some next }
        | .pass => walk project visit budget trail rest
        | .enter =>
          let ps ← parents project next
          walk project visit budget (trail.enter next) (rest ++ ps)

/-- Walk from some commits with the whole budget. -/
def walkFrom (project : ProjectName) (starts : List CommitId) (visit : CommitId → Reading Visit) :
    Reading Trail := do
  walk project visit (← get).budget .start starts

/-- Every commit that some branch of the project leads to. -/
def acceptedCommits (project : ProjectName) : Reading (List CommitId) := do
  match ((← get).view project).accepted with
  | some accepted => pure accepted
  | none =>
    let starts := (← tips project).map (·.2)
    let trail ← walkFrom project starts fun _ => pure .enter
    modify fun h => h.setView project { h.view project with accepted := some trail.entered }
    pure trail.entered

/-- Whether some branch of the project leads to a commit. -/
def isAccepted (project : ProjectName) (id : CommitId) : Reading Bool := do
  pure ((← acceptedCommits project).contains id)

/-- The commits that are not accepted and that the given ones lead to, nearest first. -/
def unacceptedAncestry (project : ProjectName) (starts : List CommitId) :
    Reading (List CommitId) := do
  let trail ← walkFrom project starts fun c => do
    pure (if ← isAccepted project c then .pass else .enter)
  pure trail.entered

/-- Whether `descendant` leads to `ancestor`; a commit leads to itself. -/
def isAncestor (project : ProjectName) (ancestor descendant : CommitId) : Reading Bool := do
  if ancestor = descendant then pure true
  else
    let anywhere ← isAccepted project ancestor
    let trail ← walkFrom project [descendant] fun c =>
      if c = ancestor then pure .stop
      else if anywhere then pure .enter
      else do pure (if ← isAccepted project c then .pass else .enter)
    pure trail.found.isSome

/-- The first commit met breadth-first from `b` that `a` leads to as well. -/
def mergeBase? (project : ProjectName) (a b : CommitId) : Reading (Option CommitId) := do
  let behind := (← walkFrom project [a] fun _ => pure .enter).entered
  let trail ← walkFrom project [b] fun c => pure (if behind.contains c then .stop else .enter)
  pure trail.found

end Landing.History
