import Landing.Tree

/-!
# Three-way merge of trees

Two trees are merged against a common base, path by path and with whole
contents.  A path merges when both sides agree or when at most one of them
differs from the base; a missing file counts as a value of its own.  The merge
succeeds when every path merges, and otherwise names all paths that do not.
-/

namespace Landing.Tree

/-- The merged value at one path, or `none` when all three values differ. -/
def mergeValue (base ours theirs : Option String) : Option (Option String) :=
  if ours = theirs ∨ theirs = base then some ours
  else if ours = base then some theirs
  else none

/-- Every path of the three trees, in ascending order and each once. -/
def allPaths (base ours theirs : Tree) : List String :=
  (Table.ofList ((base.keys ++ ours.keys ++ theirs.keys).map fun p => (p, ()))).keys

/-- The paths at which all three trees differ. -/
def conflicts (base ours theirs : Tree) : List String :=
  (allPaths base ours theirs).filter fun p =>
    (mergeValue (base.get? p) (ours.get? p) (theirs.get? p)).isNone

/-- The merged content at every path that merges and holds a file afterwards. -/
def mergedFiles (base ours theirs : Tree) : List (String × String) :=
  (allPaths base ours theirs).filterMap fun p =>
    ((mergeValue (base.get? p) (ours.get? p) (theirs.get? p)).join).map fun content => (p, content)

/-- Merge two trees against their base, or give the conflicting paths. -/
def merge (base ours theirs : Tree) : Except (List String) Tree :=
  let conflicting := conflicts base ours theirs
  if conflicting.isEmpty then .ok (Table.ofList (mergedFiles base ours theirs))
  else .error conflicting

end Landing.Tree
